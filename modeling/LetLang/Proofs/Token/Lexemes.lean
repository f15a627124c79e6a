import LetLang.Proofs.Token.Seam
import LetLang.Proofs.Token.Words

/-!
What is read for a cut of a source: each word gives one lexeme, which spells the word and stands
where the word does. A source is lexed if and only if it has a cut, so the lexemes are known from
the cut alone, in this source and in any other text that has the same words.
-/

namespace LetLang

open Text (Piece byteLength)

namespace Spelling

/-- What a word spells. -/
def ofWord (w : Word) : Spelling :=
  match w.kind with
  | .identifier => ofIdentifier (String.ofList w.text)
  | .integer => integer (String.ofList w.text)
  | .decimal => decimal (String.ofList w.text)
  | .string => string (String.ofList w.text.tail.dropLast)
  | .mark m => mark m
  | .eof => unreadable .eof

theorem proper_ofWord {w : Word} (h : Lexer.IsWord w.kind w.text) : (ofWord w).Proper := by
  obtain ⟨k, text⟩ := w
  cases h with
  | identifier => exact proper_ofIdentifier _
  | _ => trivial

theorem word_ofWord {w : Word} (h : Lexer.IsWord w.kind w.text) : (ofWord w).word = w := by
  obtain ⟨k, text⟩ := w
  cases h with
  | identifier => simp [ofWord, word_ofIdentifier, Word.name]
  | string hi => simp [ofWord, word, Word.string]
  | mark m => rfl
  | _ => simp [ofWord, word, Word.integer, Word.decimal]

end Spelling

namespace Lexer

/-- The lexeme of a word at its place. -/
def lexemeOf (p : Piece TokenKind) : Lexeme := ⟨.ofWord p.word, (tokenOf p).span⟩

theorem lexeme_tokenOf {source before after : List Char} {p : Piece TokenKind}
    (hfits : (tokenOf p).span.Fits) (hs : source = before ++ (p.word.text ++ after))
    (ho : p.offset = byteLength before) (hw : IsWord p.word.kind p.word.text) :
    Token.lexeme source (tokenOf p) = lexemeOf p := by
  have htoken : tokenOf p = ⟨p.word.kind, ⟨byteLength before, byteLength p.word.text⟩⟩ := by
    rw [tokenOf, ho]
  rw [htoken] at hfits
  obtain ⟨hproper, hword⟩ := Token.spelling_of_placed hfits hs hw
  have hspelling : Token.spelling source (tokenOf p) = .ofWord p.word := by
    rw [htoken]
    refine Spelling.word_injective hproper (Spelling.proper_ofWord hw) ?_
    rw [hword, Spelling.word_ofWord hw]
  rw [Token.lexeme, hspelling, lexemeOf]

/-- The tokens of a cut are read as its lexemes, up to the end of the source. -/
theorem reading_of_cut {source : List Char} {ps : List (Piece TokenKind)}
    (hcut : lexicon.Cut 0 source ps) (hfits : ∀ p ∈ ps, (tokenOf p).span.Fits) :
    Reading.ofTokens source (ps.map tokenOf ++ [eofAt (byteLength source)]) =
      ⟨ps.map lexemeOf, ⟨byteLength source, 0⟩⟩ := by
  have hproper : ∀ t ∈ ps.map tokenOf, !t.isEof := by
    intro t ht
    obtain ⟨p, hp, rfl⟩ := List.mem_map.1 ht
    simp [Token.isEof, tokenOf, IsWord.ne_eof (hcut.isWord p hp)]
  have htake : (ps.map tokenOf ++ [eofAt (byteLength source)]).takeWhile (!Token.isEof ·) =
      ps.map tokenOf := by
    rw [List.takeWhile_append_of_pos hproper]
    simp [Token.isEof, eofAt]
  have hfind : (ps.map tokenOf ++ [eofAt (byteLength source)]).find? Token.isEof =
      some (eofAt (byteLength source)) := by
    rw [List.find?_append, List.find?_eq_none.2 fun t ht => by simpa using hproper t ht]
    rfl
  have hlexemes : (ps.map tokenOf).map (Token.lexeme source) = ps.map lexemeOf := by
    rw [List.map_map]
    refine List.map_congr_left fun p hp => ?_
    obtain ⟨before, after, hs, ho⟩ := hcut.placed p hp
    rw [Nat.zero_add] at ho
    exact lexeme_tokenOf (hfits p hp) hs ho (hcut.isWord p hp)
  rw [Reading.ofTokens, htake, hfind, hlexemes]
  rfl

/-- What is lexed is a cut of the source. -/
theorem exists_cut_of_lex {source : String} {tokens : List Token}
    (h : lex source = ⟨tokens, none⟩) :
    ∃ ps, lexicon.Cut 0 source.toList ps ∧
      tokens = ps.map tokenOf ++ [eofAt (byteLength source.toList)] ∧
      Reading.ofTokens source.toList tokens = ⟨ps.map lexemeOf, ⟨byteLength source.toList, 0⟩⟩ := by
  rw [lex, lexFrom_eq_iff, Nat.zero_add] at h
  obtain ⟨ps, hcut, rfl, hfits⟩ := h
  refine ⟨ps, hcut, rfl, reading_of_cut hcut fun p hp => ?_⟩
  exact hfits _ (List.mem_append_left _ (List.mem_map_of_mem hp))

/-- A cut of a source that is not too long is lexed. -/
theorem lex_of_cut {source : String} {ps : List (Piece TokenKind)}
    (hlen : byteLength source.toList ≤ Span.maxLength) (h : lexicon.Cut 0 source.toList ps) :
    lex source = ⟨ps.map tokenOf ++ [eofAt (byteLength source.toList)], none⟩ := by
  have hfits := fits_of_cut (by rwa [Nat.zero_add]) h
  rw [Nat.zero_add] at hfits
  rw [lex, lexFrom_eq_iff, Nat.zero_add]
  exact ⟨ps, h, rfl, hfits⟩

theorem sound_of_cut {source : List Char} {ps : List (Piece TokenKind)}
    (h : lexicon.Cut 0 source ps) : ∀ t ∈ ps.map lexemeOf, t.Sound (byteLength source) := by
  intro t ht
  obtain ⟨p, hp, rfl⟩ := List.mem_map.1 ht
  obtain ⟨before, after, hs, ho⟩ := h.placed p hp
  refine ⟨Spelling.proper_ofWord (h.isWord p hp), ?_⟩
  simp only [lexemeOf, tokenOf, Span.hi, ho, hs, Text.byteLength_append]
  omega

theorem word?_tokenOf {source : List Char} {ps : List (Piece TokenKind)}
    (hcut : lexicon.Cut 0 source ps) {p : Piece TokenKind} (hp : p ∈ ps) :
    (tokenOf p).word? source = some p.word := by
  obtain ⟨before, after, hs, ho⟩ := hcut.placed p hp
  have htoken : tokenOf p = ⟨p.word.kind, ⟨byteLength before, byteLength p.word.text⟩⟩ := by
    rw [tokenOf, ho, Nat.zero_add]
  rw [htoken, Token.word?, Token.slice?_of_placed hs]
  rfl

theorem word?_eofAt (source : List Char) :
    (eofAt (byteLength source)).word? source = some ⟨.eof, []⟩ := by
  have hs : source = source ++ ([] ++ []) := by simp
  have := Token.slice?_of_placed hs
  simp only [eofAt, Token.word?]
  rw [show (⟨byteLength source, 0⟩ : Span) = ⟨byteLength source, byteLength []⟩ from rfl, this]
  rfl

/-- The kinds and texts of the tokens. -/
theorem words_of_cut {source : List Char} {ps : List (Piece TokenKind)}
    (hcut : lexicon.Cut 0 source ps) :
    (ps.map tokenOf ++ [eofAt (byteLength source)]).map (Token.word? source) =
      (ps.map (·.word) ++ [(⟨.eof, []⟩ : Word)]).map some := by
  rw [List.map_append, List.map_append, List.map_map, List.map_map]
  congr 1
  · exact List.map_congr_left fun p hp => word?_tokenOf hcut hp
  · simp [word?_eofAt]

theorem wordsOf_lexemeOf {ps : List (Piece TokenKind)}
    (h : ∀ p ∈ ps, IsWord p.word.kind p.word.text) :
    wordsOf (ps.map lexemeOf) = ps.map (·.word) := by
  rw [wordsOf, List.map_map]
  exact List.map_congr_left fun p hp => Spelling.word_ofWord (h p hp)

/-- What is lexed can be read, and says the words of the source. -/
theorem begins_of_lex {source : String} {tokens : List Token} (h : lex source = ⟨tokens, none⟩) :
    ∃ words, tokens.dropLast.map (Token.word? source.toList) = words.map some ∧
      (∀ w ∈ words, IsWord w.kind w.text) ∧
      (∀ t ∈ (Reading.ofTokens source.toList tokens).lexemes,
        t.Sound (byteLength source.toList)) ∧
      Begins (byteLength source.toList) (Reading.ofTokens source.toList tokens).lexemes
        words [] := by
  obtain ⟨ps, hcut, rfl, hreading⟩ := exists_cut_of_lex h
  have hsound := sound_of_cut hcut
  rw [hreading, List.dropLast_concat, List.map_map]
  refine ⟨ps.map (·.word), ?_, ?_, hsound, wordsOf_lexemeOf hcut.isWord ▸ Begins.of_forall hsound⟩
  · rw [List.map_map]
    exact List.map_congr_left fun p hp => word?_tokenOf hcut hp
  · intro w hw
    obtain ⟨p, hp, rfl⟩ := List.mem_map.1 hw
    exact hcut.isWord p hp

end Lexer

/-- Each lexeme ends before the next one starts. -/
def InOrder (ts : List Lexeme) : Prop := ts.Pairwise fun t u => t.span.hi ≤ u.span.lo

theorem Lexer.inOrder_of_cut {source : List Char} {ps : List (Piece TokenKind)}
    (h : lexicon.Cut 0 source ps) : InOrder (ps.map lexemeOf) := by
  have := (@tiles_of_cut _ [] _ _ rfl h).ordered
  rw [List.pairwise_map] at this
  exact List.pairwise_map.2 this

end LetLang
