import LetLang.Proofs.Compiler.Limits
import LetLang.Proofs.Typing.Alike

/-!
Layout never changes a result. Two sources with the same words, whatever blanks stand between them,
have the same trees up to spans and the same Java, or are refused with the same error about the same
tokens. Spans are compared by the tokens they cover, which is a relation that joins respect; the
rest is that no stage looks at a span.
-/

namespace LetLang

open Text (Piece byteLength)
open Lexer (lexicon lexemeOf tokenOf eofAt Tiling)

/-! Spans as stretches of tokens. -/

/-- From the start of token `i` to the end of token `j`. -/
structure Span.Between (tokens : List Token) (i j : Nat) (s : Span) : Prop where
  first : ∃ t, tokens[i]? = some t ∧ s.lo = t.span.lo
  last : ∃ t, tokens[j]? = some t ∧ s.hi = t.span.hi

/-- Spans that cover tokens of the same numbers, and not the end. -/
def Span.SameTokens (tokens tokens' : List Token) (s s' : Span) : Prop :=
  ∃ i j, i ≤ j ∧ j + 1 < tokens.length ∧ s.Between tokens i j ∧ s'.Between tokens' i j

namespace Span

variable {source source' : List Char} {tokens tokens' : List Token} {i j k l : Nat} {a b s : Span}

theorem mono_of_tiling (h : Tiling source tokens) {t u : Token} (hij : i ≤ j)
    (ht : tokens[i]? = some t) (hu : tokens[j]? = some u) :
    t.span.lo ≤ u.span.lo ∧ t.span.hi ≤ u.span.hi := by
  rcases Nat.eq_or_lt_of_le hij with rfl | hlt
  · cases ht.symm.trans hu
    exact ⟨Nat.le_refl _, Nat.le_refl _⟩
  · obtain ⟨hi, rfl⟩ := List.getElem?_eq_some_iff.1 ht
    obtain ⟨hj, rfl⟩ := List.getElem?_eq_some_iff.1 hu
    have hord := List.pairwise_iff_getElem.1 h.ordered i j hi hj hlt
    exact ⟨Nat.le_of_lt hord.1, Nat.le_trans hord.2 (lo_le_hi _)⟩

theorem Between.hi_le (h : Tiling source tokens) (hs : s.Between tokens i j) :
    s.hi ≤ byteLength source := by
  obtain ⟨t, ht, hhi⟩ := hs.last
  rw [hhi]
  exact h.inBounds t (List.mem_of_getElem? ht)

theorem Between.join (h : Tiling source tokens) (ha : a.Between tokens i j)
    (hb : b.Between tokens k l) (hs : a.join? b = some s) :
    s.Between tokens (min i k) (max j l) := by
  obtain ⟨hlo, hhi, -⟩ := ofBounds?_eq_some_iff.1 hs
  obtain ⟨⟨t, ht, hat⟩, ⟨u, hu, hau⟩⟩ := ha
  obtain ⟨⟨v, hv, hbv⟩, ⟨w, hw, hbw⟩⟩ := hb
  constructor
  · rcases Nat.le_total i k with hik | hki
    · refine ⟨t, by rwa [Nat.min_eq_left hik], ?_⟩
      rw [hlo, hat, hbv, Nat.min_eq_left (mono_of_tiling h hik ht hv).1]
    · refine ⟨v, by rwa [Nat.min_eq_right hki], ?_⟩
      rw [hlo, hat, hbv, Nat.min_eq_right (mono_of_tiling h hki hv ht).1]
  · rcases Nat.le_total j l with hjl | hlj
    · refine ⟨w, by rwa [Nat.max_eq_right hjl], ?_⟩
      rw [hhi, hau, hbw, Nat.max_eq_right (mono_of_tiling h hjl hu hw).2]
    · refine ⟨u, by rwa [Nat.max_eq_left hlj], ?_⟩
      rw [hhi, hau, hbw, Nat.max_eq_left (mono_of_tiling h hlj hw hu).2]

theorem joins_sameTokens (h : Tiling source tokens) (h' : Tiling source' tokens')
    (hlen' : byteLength source' ≤ maxLength) : Joins (SameTokens tokens tokens') := by
  intro a a' b b' s hab hab' hs
  obtain ⟨i, j, hij, hj, ha, ha'⟩ := hab
  obtain ⟨k, l, hkl, hl, hb, hb'⟩ := hab'
  obtain ⟨s', hs', -⟩ := join?_of_hi_le hlen' (ha'.hi_le h') (hb'.hi_le h')
  refine ⟨s', hs', min i k, max j l, ?_, ?_, ha.join h hb hs, ha'.join h' hb' hs'⟩
  · exact Nat.le_trans (Nat.min_le_left i k) (Nat.le_trans hij (Nat.le_max_left j l))
  · omega

end Span

/-! Java is written from the names, types and literals of a tree. -/

namespace Java

variable {catalog : Catalog} {R : Span → Span → Prop}

mutual

theorem expr_alike {e e' : Expr .typed} : e.Like (.places R) e' → expr e = expr e'
  | .literal rfl _ => by simp only [expr]
  | .group h _ => by simp only [expr, expr_alike h]
  | .binary hl hr _ => by simp only [expr, expr_alike hl, expr_alike hr]
  | .var hx _ => by simp only [expr, hx.1]
  | .call _ hargs _ => by simp only [expr, exprs_alike hargs]

theorem exprs_alike {es es' : List (Expr .typed)} :
    Expr.LikeAll (.places R) es es' → exprs es = exprs es'
  | .nil => rfl
  | .cons h hes => by simp only [exprs, expr_alike h, exprs_alike hes]

end

mutual

theorem stmt_alike {s s' : Stmt .typed} (level : Nat) : s.Like (.places R) s' →
    stmt catalog level s = stmt catalog level s'
  | .expr h _ => by simp only [stmt, expr_alike h]
  | .declaration hx hty .none _ => by
    rw [hty]
    simp only [stmt, hx.1]
  | .declaration hx hty (.some h) _ => by
    rw [hty]
    simp only [stmt, hx.1, expr_alike h]
  | .assignment hx h _ => by simp only [stmt, hx.1, expr_alike h]
  | .branch hc hyes hno _ => by
    simp only [stmt, expr_alike hc, block_alike _ hyes, block_alike _ hno, hno.isEmpty_eq]
  | .loop hc hbody _ => by simp only [stmt, expr_alike hc, block_alike _ hbody]

theorem block_alike {ss ss' : Block .typed} (level : Nat) : Stmt.LikeAll (.places R) ss ss' →
    block catalog level ss = block catalog level ss'
  | .nil => rfl
  | .cons h hss => by simp only [block, stmt_alike level h, block_alike level hss]

end

theorem generate?_alike {options : Options} {program program' : Block .typed}
    (h : Stmt.LikeAll (.places R) program program') :
    generate? catalog options program = generate? catalog options program' := by
  simp only [generate?, lines, block_alike 2 h]

end Java

/-! Two sources of the same words. -/

/-- The tokens of both sources, which agree in kind and text. -/
structure SameWords (source source' : String) (tokens tokens' : List Token) : Prop where
  lex : Lexer.lex source = ⟨tokens, none⟩
  lex' : Lexer.lex source' = ⟨tokens', none⟩
  words : tokens.map (Token.word? source.toList) = tokens'.map (Token.word? source'.toList)

/-- Two results that are alike, or errors that are. -/
inductive Result.Like {ε α : Type} (E : ε → ε → Prop) (Same : α → α → Prop) :
    Result ε α → Result ε α → Prop
  | ok {a b : α} : Same a b → Like E Same (.ok a) (.ok b)
  | error {e e' : ε} : E e e' → Like E Same (.error (.error e)) (.error (.error e'))

/-- The same error of the same stage: the parser is stopped by tokens of the same number, unless
there are none in either source, and typing by the same stretch of tokens. -/
inductive CompileError.Like (source source' : String) (tokens tokens' : List Token) :
    CompileError → CompileError → Prop
  | emptySource :
      Like source source' tokens tokens'
        (.parse ⟨⟨0, byteLength source.toList⟩, .emptySource⟩)
        (.parse ⟨⟨0, byteLength source'.toList⟩, .emptySource⟩)
  | parse {k : Nat} {t t' : Token} {e : ParseError} :
      tokens[k]? = some t → tokens'[k]? = some t' →
      Like source source' tokens tokens' (.parse ⟨t.span, e⟩) (.parse ⟨t'.span, e⟩)
  | typing {s s' : Span} {e : TypeError} :
      s.SameTokens tokens tokens' s' →
      Like source source' tokens tokens' (.typing ⟨s, e⟩) (.typing ⟨s', e⟩)

/-- The same tree up to spans, which cover the same tokens, or the same error. -/
abbrev Result.SameBlock {p : Phase} (source source' : String) (tokens tokens' : List Token) :
    Result CompileError (Block p) → Result CompileError (Block p) → Prop :=
  Like (CompileError.Like source source' tokens tokens')
    (Stmt.LikeAll (.places (Span.SameTokens tokens tokens')))

/-- What two sources have in common that cannot be told apart but by their spans. -/
structure SameOutcome (catalog : Catalog) (options : Java.Options) (source source' : String)
    (tokens tokens' : List Token) : Prop where
  tree : Result.SameBlock source source' tokens tokens'
    (Compiler.tree source) (Compiler.tree source')
  typedTree : Result.SameBlock source source' tokens tokens'
    (Compiler.typedTree catalog source) (Compiler.typedTree catalog source')
  java :
    (∃ text, Compiler.compile catalog options source = .ok text ∧
      Compiler.compile catalog options source' = .ok text) ∨
    (∃ program program', Compiler.typedTree catalog source = .ok program ∧
      Compiler.typedTree catalog source' = .ok program' ∧
      Java.generate? catalog options program = none ∧
      Java.generate? catalog options program' = none ∧
      Compiler.compile catalog options source = .error .abort ∧
      Compiler.compile catalog options source' = .error .abort) ∨
    ∃ e e', e.Like source source' tokens tokens' e' ∧
      Compiler.compile catalog options source = .error (.error e) ∧
      Compiler.compile catalog options source' = .error (.error e')

theorem Lexer.tiling_of_cut {source : List Char} {ps : List (Piece TokenKind)}
    (hcut : lexicon.Cut 0 source ps) :
    Tiling source (ps.map tokenOf ++ [eofAt (byteLength source)]) :=
  tiling_of_tiles (tiles_of_cut (List.nil_append _).symm hcut)

/-- The words of two cuts with the same tokens are the same. -/
theorem Lexer.words_eq_of_cut {source source' : List Char} {ps ps' : List (Piece TokenKind)}
    (hcut : lexicon.Cut 0 source ps) (hcut' : lexicon.Cut 0 source' ps')
    (h : (ps.map tokenOf ++ [eofAt (byteLength source)]).map (Token.word? source) =
      (ps'.map tokenOf ++ [eofAt (byteLength source')]).map (Token.word? source')) :
    ps.map (·.word) = ps'.map (·.word) := by
  rw [words_of_cut hcut, words_of_cut hcut', List.map_inj_right fun _ _ => Option.some.inj] at h
  exact List.append_cancel_right h

theorem Lexer.between_lexemeOf {ps : List (Piece TokenKind)} (last : Token) {i : Nat}
    (hi : i < ps.length) : (lexemeOf ps[i]).span.Between (ps.map tokenOf ++ [last]) i i := by
  have htoken : (ps.map tokenOf ++ [last])[i]? = some (tokenOf ps[i]) := by
    rw [List.getElem?_append_left (by simpa using hi), List.getElem?_map,
      List.getElem?_eq_getElem hi, Option.map_some]
  exact ⟨⟨_, htoken, rfl⟩, _, htoken, rfl⟩

/-- Lexemes of the same number spell the same and stand at tokens of that number. -/
theorem Lexer.lexemes_alike {ps ps' : List (Piece TokenKind)} (last last' : Token)
    (h : ps.map (·.word) = ps'.map (·.word)) :
    Lexeme.LikeAll (Span.SameTokens (ps.map tokenOf ++ [last]) (ps'.map tokenOf ++ [last']))
      (ps.map lexemeOf) (ps'.map lexemeOf) := by
  have hlength : ps.length = ps'.length := by simpa using congrArg List.length h
  refine List.forall₂_iff_get.2 ⟨by simpa using hlength, fun i hi hi' => ?_⟩
  rw [List.length_map] at hi hi'
  have hword : ps[i].word = ps'[i].word := by
    have := List.getElem_of_eq h (by simpa using hi)
    simpa using this
  rw [List.get_eq_getElem, List.get_eq_getElem, List.getElem_map, List.getElem_map]
  exact ⟨congrArg Spelling.ofWord hword, i, i, Nat.le_refl i, by simpa using hi,
    between_lexemeOf last hi, between_lexemeOf last' hi'⟩

namespace Compiler

variable {catalog : Catalog} {source source' : String} {tokens tokens' : List Token}

theorem tree_of_blockAt {ps : List (Piece TokenKind)} {program : Block .parsed}
    (hlen : byteLength source.toList ≤ Span.maxLength) (hcut : lexicon.Cut 0 source.toList ps)
    (h : BlockAt (ps.map lexemeOf) program) (hne : program ≠ []) : tree source = .ok program := by
  have hprogram := (parseProgram_eq_ok_iff hlen).2 ⟨ps, hcut, h, hne⟩
  have hlex := Lexer.lex_of_cut hlen hcut
  rw [parseProgram, hlex] at hprogram
  rw [tree_of_lex hlex]
  exact Result.mapError_eq_ok_iff.2 hprogram

section Words

variable {ps ps' : List (Piece TokenKind)} (hlen' : byteLength source'.toList ≤ Span.maxLength)
  (hcut : lexicon.Cut 0 source.toList ps) (hcut' : lexicon.Cut 0 source'.toList ps')
  (hwords : ps.map (·.word) = ps'.map (·.word))
include hlen' hcut hcut' hwords

/-- What is a program in one layout is one in the other. -/
theorem exists_tree_of_words {program : Block .parsed} (h : BlockAt (ps.map lexemeOf) program)
    (hne : program ≠ []) :
    ∃ program', tree source' = .ok program' ∧
      Stmt.LikeAll (.places (Span.SameTokens
        (ps.map tokenOf ++ [eofAt (byteLength source.toList)])
        (ps'.map tokenOf ++ [eofAt (byteLength source'.toList)]))) program program' := by
  have hjoins := Span.joins_sameTokens (Lexer.tiling_of_cut hcut) (Lexer.tiling_of_cut hcut') hlen'
  obtain ⟨program', hblock', hlike⟩ := h.alike hjoins (Lexer.lexemes_alike _ _ hwords)
  refine ⟨program', tree_of_blockAt hlen' hcut' hblock' ?_, hlike⟩
  intro hnil
  rw [hnil] at hlike
  cases hlike
  exact hne rfl

/-- What the parser stops at in one layout it stops at in the other. -/
theorem exists_token_of_words {used rest : List Lexeme} {e : ParseError}
    (hps : ps.map lexemeOf = used ++ rest) (h : Rejects (ps.map lexemeOf) rest e) :
    ∃ t t', (ps.map tokenOf ++ [eofAt (byteLength source.toList)])[used.length]? = some t ∧
      (ps'.map tokenOf ++ [eofAt (byteLength source'.toList)])[used.length]? = some t' ∧
      t.span = Parser.place ⟨byteLength source.toList, 0⟩ rest ∧
      parse source' (ps'.map tokenOf ++ [eofAt (byteLength source'.toList)]) =
        .error (.error ⟨t'.span, e⟩) := by
  have hkinds : ∀ p ∈ ps, p.word.kind ≠ .eof := fun p hp => Lexer.IsWord.ne_eof (hcut.isWord p hp)
  obtain ⟨t, ht, hspan, -⟩ := @Lexer.exists_token (byteLength source.toList) _ _ _ hkinds hps
  have hagree : ∀ n, Parser.Agree n (ps.map lexemeOf) (ps'.map lexemeOf) := by
    intro n
    rw [Parser.Agree, Lexer.spelling_lexemeOf, Lexer.spelling_lexemeOf, hwords]
  obtain ⟨t', ht', hparse'⟩ := parse_of_agree hlen' hcut' hps h rfl (hagree _)
  exact ⟨t, t', ht, ht', hspan, hparse'⟩

end Words

/-- The parser looks at the words only, and where it stops at one of them it stops at the same one.
-/
theorem tree_alike (hlen : byteLength source.toList ≤ Span.maxLength)
    (hlen' : byteLength source'.toList ≤ Span.maxLength)
    (h : SameWords source source' tokens tokens') :
    Result.SameBlock source source' tokens tokens' (tree source) (tree source') := by
  obtain ⟨hlex, hlex', htokens⟩ := h
  obtain ⟨ps, hcut, rfl, -⟩ := Lexer.exists_cut_of_lex hlex
  obtain ⟨ps', hcut', rfl, -⟩ := Lexer.exists_cut_of_lex hlex'
  have hwords := Lexer.words_eq_of_cut hcut hcut' htokens
  rcases parse_cases hlen hcut with ⟨hnil, hparse⟩ | ⟨-, program, hparse, -⟩ |
    ⟨used, rest, e, hps, hparse, -, hrejects⟩
  · -- then the other source has no word either
    have hnil' : ps' = [] := by simpa [hnil] using hwords.symm
    rcases parse_cases hlen' hcut' with ⟨-, hparse'⟩ | ⟨hne', -⟩ | ⟨-, -, -, -, -, -, hne', -⟩
    · rw [tree_of_lex hlex, tree_of_lex hlex', hparse, hparse']
      exact .error .emptySource
    · exact absurd hnil' hne'
    · exact absurd (by simp [hnil']) hne'
  · have htree : tree source = .ok program := by
      rw [tree_of_lex hlex, hparse]
      rfl
    obtain ⟨ps₂, hcut₂, hblock, hne⟩ := blockAt_of_tree hlen htree
    obtain rfl := hcut.unique hcut₂
    obtain ⟨program', htree', hlike⟩ := exists_tree_of_words hlen' hcut hcut' hwords hblock hne
    rw [htree, htree']
    exact .ok hlike
  · obtain ⟨t, t', ht, ht', hspan, hparse'⟩ :=
      exists_token_of_words hlen' hcut hcut' hwords hps hrejects
    rw [tree_of_lex hlex, tree_of_lex hlex', hparse, hparse', ← hspan]
    exact .error (.parse ht ht')

theorem typedTree_alike (hlen : byteLength source.toList ≤ Span.maxLength)
    (h : Result.SameBlock source source' tokens tokens' (tree source) (tree source')) :
    Result.SameBlock source source' tokens tokens' (typedTree catalog source)
      (typedTree catalog source') := by
  unfold typedTree
  rcases htree : tree source with f | program
  · rw [htree] at h
    generalize tree source' = r at h
    cases h with
    | error h => exact .error h
  · obtain ⟨-, -, -, hne⟩ := blockAt_of_tree hlen htree
    rw [htree] at h
    generalize tree source' = r at h
    cases h with
    | @ok _ program' h =>
      have hprogram : TypeResult.Like _ _ (Typing.program catalog .root program).1
          (Typing.program catalog .root program').1 := (Typing.program_alike hne h).result
      dsimp only [bind, Except.bind]
      generalize (Typing.program catalog .root program).1 = q,
        (Typing.program catalog .root program').1 = q' at hprogram
      cases hprogram with
      | ok h => exact .ok h
      | error h => exact .error (.typing h)

/-- Two sources that are not too long and have the same words: each stage does the same with both,
and what it says of one it says of the same tokens of the other. -/
theorem sameOutcome_of_sameWords (catalog : Catalog) (options : Java.Options)
    (source source' : String) (tokens tokens' : List Token)
    (hlen : byteLength source.toList ≤ Span.maxLength)
    (hlen' : byteLength source'.toList ≤ Span.maxLength)
    (h : SameWords source source' tokens tokens') :
    SameOutcome catalog options source source' tokens tokens' := by
  have htree := tree_alike hlen hlen' h
  have htyped := @typedTree_alike catalog _ _ _ _ hlen htree
  refine ⟨htree, htyped, ?_⟩
  unfold compile
  generalize typedTree catalog source = r, typedTree catalog source' = r' at htyped
  cases htyped with
  | error he => exact .inr (.inr ⟨_, _, he, rfl, rfl⟩)
  | @ok program program' hlike =>
    have hjava : Java.generate? catalog options program = Java.generate? catalog options program' :=
      Java.generate?_alike hlike
    cases hg : Java.generate? catalog options program with
    | some text =>
      refine .inl ⟨text, ?_, ?_⟩
      · rw [Except.bind_eq_ok_iff]
        exact ⟨program, rfl, Result.ofOption_eq_ok_iff.2 hg⟩
      · rw [Except.bind_eq_ok_iff]
        exact ⟨program', rfl, Result.ofOption_eq_ok_iff.2 (hjava ▸ hg)⟩
    | none =>
      have hg' : Java.generate? catalog options program' = none := hjava ▸ hg
      refine .inr (.inl ⟨program, program', rfl, rfl, hg, hg', ?_, ?_⟩)
      · exact Except.bind_eq_error_iff.2
          (.inr ⟨program, rfl, Result.ofOption_eq_error_iff.2 ⟨hg, rfl⟩⟩)
      · exact Except.bind_eq_error_iff.2
          (.inr ⟨program', rfl, Result.ofOption_eq_error_iff.2 ⟨hg', rfl⟩⟩)

theorem sameOutcome_of_spread_call :
    byteLength "print(1+\"a\");".toList ≤ Span.maxLength ∧
    byteLength "print ( 1\n\t+ \"a\" ) ;\n".toList ≤ Span.maxLength ∧
    SameWords "print(1+\"a\");" "print ( 1\n\t+ \"a\" ) ;\n"
      (Lexer.lex "print(1+\"a\");").tokens (Lexer.lex "print ( 1\n\t+ \"a\" ) ;\n").tokens ∧
    SameOutcome .standard ⟨"Main", 4⟩ "print(1+\"a\");" "print ( 1\n\t+ \"a\" ) ;\n"
      (Lexer.lex "print(1+\"a\");").tokens
      (Lexer.lex "print ( 1\n\t+ \"a\" ) ;\n").tokens := by
  have hlen : byteLength "print(1+\"a\");".toList ≤ Span.maxLength := by decide
  have hlen' : byteLength "print ( 1\n\t+ \"a\" ) ;\n".toList ≤ Span.maxLength := by decide
  have hwords : SameWords "print(1+\"a\");" "print ( 1\n\t+ \"a\" ) ;\n"
      (Lexer.lex "print(1+\"a\");").tokens (Lexer.lex "print ( 1\n\t+ \"a\" ) ;\n").tokens :=
    ⟨by decide +kernel, by decide +kernel, by decide +kernel⟩
  exact ⟨hlen, hlen', hwords, sameOutcome_of_sameWords _ _ _ _ _ _ hlen hlen' hwords⟩

end Compiler

end LetLang
