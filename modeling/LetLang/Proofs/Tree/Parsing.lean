import LetLang.Proofs.Token.Lexemes
import LetLang.Proofs.Tree.Complete

/-!
The parser accepts the programs of the grammar and gives their trees. A list of words has at most
one tree, since the parser is a function.
-/

namespace LetLang

open Parser Grammar
open Text (byteLength)

theorem parse_eq_ok_iff {source : String} {tokens : List Token} {tree : Block .parsed} :
    parse source tokens = .ok tree ↔
      (Reading.ofTokens source.toList tokens).lexemes ≠ [] ∧
        Reads (block (Reading.ofTokens source.toList tokens).finish []
          (Reading.ofTokens source.toList tokens).lexemes) tree [] := by
  unfold parse
  dsimp only
  generalize Reading.ofTokens source.toList tokens = reading
  split
  · next h =>
    refine ⟨fun h' => ?_, fun h' => absurd (List.isEmpty_iff.1 h) h'.1⟩
    split at h' <;> cases h'
  · next h =>
    refine value_eq_ok_iff.trans ⟨?_, fun h' => ⟨[], h'.2⟩⟩
    rintro ⟨rest, hr⟩
    obtain rfl := block_nil_rest hr
    exact ⟨fun hnil => h (List.isEmpty_iff.2 hnil), hr⟩

theorem StmtAt.ne_nil {us : List Lexeme} {s : Stmt .parsed} (h : StmtAt us s) : us ≠ [] := by
  cases h <;> simp

theorem BlockAt.nil_iff {us : List Lexeme} {ss : Block .parsed} (h : BlockAt us ss) :
    us = [] ↔ ss = [] := by
  cases h with
  | nil => simp
  | cons hs _ => simp [hs.ne_nil]

/-- A text is read as a program if its tokens fit and its lexemes are those of the program, with the
same places. -/
theorem parseProgram_eq_ok_iff_of_fits {source : String} {program : Block .parsed} :
    parseProgram source = .ok program ↔
      ∃ ps, Lexer.lexicon.Cut 0 source.toList ps ∧
        (∀ t ∈ ps.map Lexer.tokenOf ++ [Lexer.eofAt (byteLength source.toList)], t.span.Fits) ∧
        BlockAt (ps.map Lexer.lexemeOf) program ∧ program ≠ [] := by
  unfold parseProgram
  dsimp only
  refine ⟨fun h => ?_, ?_⟩
  · split at h
    · cases h
    · next hnone =>
      have hlex : Lexer.lex source = ⟨(Lexer.lex source).tokens, none⟩ := by rw [← hnone]
      obtain ⟨ps, hcut, htokens, hfits⟩ := Lexer.lexFrom_eq_iff.1 hlex
      rw [Nat.zero_add] at htokens
      rw [htokens] at h hfits
      rw [parse_eq_ok_iff, Lexer.reading_of_cut hcut fun p hp =>
        hfits _ (List.mem_append_left _ (List.mem_map_of_mem hp))] at h
      obtain ⟨us, hus, hss⟩ := blockAt_of_reads h.2
      obtain rfl : ps.map Lexer.lexemeOf = us := by simpa using hus
      exact ⟨ps, hcut, hfits, hss, mt hss.nil_iff.2 h.1⟩
  · rintro ⟨ps, hcut, hfits, hss, hne⟩
    have hread : Reads (block ⟨byteLength source.toList, 0⟩ [] (ps.map Lexer.lexemeOf ++ []))
        program [] := reads_of_blockAt hss endsBlock_nil rfl
    rw [List.append_nil] at hread
    have hlex : Lexer.lex source =
        ⟨ps.map Lexer.tokenOf ++ [Lexer.eofAt (byteLength source.toList)], none⟩ := by
      rw [Lexer.lex, Lexer.lexFrom_eq_iff, Nat.zero_add]
      exact ⟨ps, hcut, rfl, hfits⟩
    rw [hlex, parse_eq_ok_iff, Lexer.reading_of_cut hcut fun p hp =>
      hfits _ (List.mem_append_left _ (List.mem_map_of_mem hp))]
    exact ⟨mt hss.nil_iff.1 hne, hread⟩

/-- In a text that is not too long every token fits. -/
theorem parseProgram_eq_ok_iff {source : String} {program : Block .parsed}
    (hlen : byteLength source.toList ≤ Span.maxLength) :
    parseProgram source = .ok program ↔
      ∃ ps, Lexer.lexicon.Cut 0 source.toList ps ∧ BlockAt (ps.map Lexer.lexemeOf) program ∧
        program ≠ [] := by
  rw [parseProgram_eq_ok_iff_of_fits]
  refine ⟨?_, ?_⟩
  · rintro ⟨ps, hcut, -, h⟩
    exact ⟨ps, hcut, h⟩
  · rintro ⟨ps, hcut, h⟩
    have hfits := Lexer.fits_of_cut (by rwa [Nat.zero_add]) hcut
    rw [Nat.zero_add] at hfits
    exact ⟨ps, hcut, hfits, h⟩

/-- What is parsed covers the lexemes of the source, whatever its length is. -/
theorem exists_cut_of_parse {source : String} {tokens : List Token} {tree : Block .parsed}
    (hlex : Lexer.lex source = ⟨tokens, none⟩) (h : parse source tokens = .ok tree) :
    ∃ ps, Lexer.lexicon.Cut 0 source.toList ps ∧
      tokens = ps.map Lexer.tokenOf ++ [Lexer.eofAt (byteLength source.toList)] ∧
      BlockAt (ps.map Lexer.lexemeOf) tree := by
  obtain ⟨ps, hcut, htokens, hreading⟩ := Lexer.exists_cut_of_lex hlex
  rw [parse_eq_ok_iff, hreading] at h
  obtain ⟨us, hus, htree⟩ := blockAt_of_reads h.2
  rw [List.append_nil] at hus
  rw [← hus] at htree
  exact ⟨ps, hcut, htokens, htree⟩

/-- What is read up to the end is a program. -/
theorem program_of_reads {limit : Nat} {finish : Span} {ts : List Lexeme} {ws : List Word}
    {tree : Block .parsed} (hts : ∀ t ∈ ts, t.Sound limit) (hb : Begins limit ts ws [])
    (hne : ts ≠ []) (hr : Reads (block finish [] ts) tree []) :
    Program ws (Stmt.bareAll tree) := by
  obtain ⟨us, hus, hss⟩ := blockAt_of_reads hr
  rw [List.append_nil] at hus
  rw [hb.words_eq, hus]
  refine ⟨hss.statements fun t ht => (hts t (hus ▸ ht)).proper, ?_⟩
  have hgo : ¬ (ts.isEmpty || startsWithAny [] ts) := by simpa [startsWithAny_nil] using hne
  obtain ⟨s, mid, -, more, after, -, rfl, -⟩ := (reads_block_cons hgo).1 hr
  simp [Stmt.bareAll]

/-- In a source that is not too long, every program is read. -/
theorem reads_of_program {limit : Nat} {finish : Span} {ts : List Lexeme} {ws : List Word}
    {program : List Bare.Stmt} (hlimit : limit ≤ Span.maxLength) (hb : Begins limit ts ws [])
    (h : Program ws program) :
    ∃ tree, (ts ≠ [] ∧ Reads (block finish [] ts) tree []) ∧ Stmt.bareAll tree = program := by
  obtain ⟨us, tree, rfl, hss, rfl⟩ := exists_blockAt hlimit h.1 hb
  have hr : Reads (block finish [] (us ++ [])) tree [] := reads_of_blockAt hss endsBlock_nil rfl
  refine ⟨tree, ⟨fun hnil => ?_, hr⟩, rfl⟩
  rw [hnil] at hr
  obtain ⟨rfl, -⟩ := (reads_block_stop rfl).1 hr
  exact h.2 rfl

/-- A tree that the parser gives is derived from the words of the source. -/
theorem program_of_parse {source : String} {tokens : List Token} {tree : Block .parsed}
    (hlex : Lexer.lex source = ⟨tokens, none⟩) (h : parse source tokens = .ok tree) :
    ∃ words, (∀ w ∈ words, Lexer.IsWord w.kind w.text) ∧ Program words (Stmt.bareAll tree) := by
  obtain ⟨words, -, hwords, hsound, hbegins⟩ := Lexer.begins_of_lex hlex
  obtain ⟨hne, hr⟩ := parse_eq_ok_iff.1 h
  exact ⟨words, hwords, program_of_reads hsound hbegins hne hr⟩

/-- Every source that is lexed: the words of its tokens are those of a program, up to the places of
the nodes, if and only if the parser gives that program, and they are those of one program at most.
-/
theorem parse_iff_program (source : String) (tokens : List Token)
    (hlen : byteLength source.toList ≤ Span.maxLength)
    (hlex : Lexer.lex source = ⟨tokens, none⟩) :
    ∃ words, tokens.dropLast.map (Token.word? source.toList) = words.map some ∧
      (∀ program, Program words program ↔
        ∃ tree, parse source tokens = .ok tree ∧ Stmt.bareAll tree = program) ∧
      ∀ program program', Program words program → Program words program' → program = program' := by
  obtain ⟨words, hwords, -, hsound, hbegins⟩ := Lexer.begins_of_lex hlex
  have hiff : ∀ program, Program words program ↔
      ∃ tree, parse source tokens = .ok tree ∧ Stmt.bareAll tree = program := by
    intro program
    simp only [parse_eq_ok_iff]
    refine ⟨reads_of_program hlen hbegins, ?_⟩
    rintro ⟨tree, ⟨hne, hr⟩, rfl⟩
    exact program_of_reads hsound hbegins hne hr
  refine ⟨words, hwords, hiff, fun program program' h h' => ?_⟩
  obtain ⟨tree, htree, rfl⟩ := (hiff program).1 h
  obtain ⟨tree', htree', rfl⟩ := (hiff program').1 h'
  rw [htree] at htree'
  cases htree'
  rfl

theorem parse_of_mixed_operators :
    ∃ tree, parse "x=1+2*y;" (Lexer.lex "x=1+2*y;").tokens = .ok tree ∧
      Stmt.bareAll tree = [.assignment "x" (.binary .add (.literal (.integer "1"))
        (.binary .mul (.literal (.integer "2")) (.var "y")))] := by
  obtain ⟨words, hwords, h, -⟩ :=
    parse_iff_program "x=1+2*y;" (Lexer.lex "x=1+2*y;").tokens (by decide) (by decide +kernel)
  refine (h _).1 ⟨?_, by simp⟩
  obtain rfl : words = [.name "x", .mark .assign, .integer "1", .mark .plus, .integer "2",
      .mark .star, .name "y", .mark .semicolon] := by
    refine (List.map_inj_right fun _ _ => Option.some.inj).1 (hwords.symm.trans ?_)
    decide +kernel
  have hproduct : Layer 2 [.integer "2", .mark .star, .name "y"]
      (.binary .mul (.literal (.integer "2")) (.var "y")) :=
    @Layer.chain .mul 2 [_] [_] _ _ rfl (.tighter (.primary .integer)) (.primary (.var (by decide)))
  have hsum : Layer 1 [.integer "1", .mark .plus, .integer "2", .mark .star, .name "y"]
      (.binary .add (.literal (.integer "1")) (.binary .mul (.literal (.integer "2")) (.var "y"))) :=
    @Layer.chain .add 1 [_] [_, _, _] _ _ rfl (.tighter (.tighter (.primary .integer))) hproduct
  exact .cons (.assignment (by decide) hsum.tighter) .nil

end LetLang
