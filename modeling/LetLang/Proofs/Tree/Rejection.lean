import LetLang.Proofs.Tree.Outcomes.Statements
import LetLang.Proofs.Tree.Parsing

/-!
Errors of the parser. A source is rejected at its first token that no program goes on with: what
stands before it can be completed, and the error is known from the tokens up to the one after it.
-/

namespace LetLang

open Parser Grammar
open Text (Piece byteLength)
open Lexer (lexicon lexemeOf tokenOf eofAt)

/-! The tokens of a source and its lexemes. -/

namespace Lexer

theorem spelling_lexemeOf (ps : List (Piece TokenKind)) :
    (ps.map lexemeOf).map (·.spelling) = (ps.map (·.word)).map Spelling.ofWord := by
  simp [lexemeOf, Function.comp_def]

/-- The words among the first tokens, the last of which may be the end. -/
theorem filter_take_of_cut {source : List Char} {ps : List (Piece TokenKind)}
    (hcut : lexicon.Cut 0 source ps) (n : Nat) :
    ((ps.map (·.word) ++ [(⟨.eof, []⟩ : Word)]).take n).filter (·.kind ≠ .eof) =
      (ps.map (·.word)).take n := by
  have hkinds : ∀ w ∈ (ps.map (·.word)).take n, decide (w.kind ≠ .eof) = true := by
    intro w hw
    obtain ⟨p, hp, rfl⟩ := List.mem_map.1 (List.mem_of_mem_take hw)
    simpa using IsWord.ne_eof (hcut.isWord p hp)
  have hend : ([(⟨.eof, []⟩ : Word)].take (n - (ps.map (·.word)).length)).filter
      (·.kind ≠ .eof) = [] := by
    cases n - (ps.map (·.word)).length <;> simp
  rw [List.take_append, List.filter_append, List.filter_eq_self.2 hkinds, hend, List.append_nil]

/-- Tokens that agree in kind and text are lexemes that spell the same. -/
theorem agree_of_words {source source' : List Char} {ps ps' : List (Piece TokenKind)} {n : Nat}
    (hcut : lexicon.Cut 0 source ps) (hcut' : lexicon.Cut 0 source' ps')
    (h : ((ps.map tokenOf ++ [eofAt (byteLength source)]).take n).map (Token.word? source) =
      ((ps'.map tokenOf ++ [eofAt (byteLength source')]).take n).map (Token.word? source')) :
    Agree n (ps.map lexemeOf) (ps'.map lexemeOf) := by
  rw [List.map_take, List.map_take, words_of_cut hcut, words_of_cut hcut', ← List.map_take,
    ← List.map_take, List.map_inj_right fun _ _ => Option.some.inj] at h
  have htake := (filter_take_of_cut hcut n).symm.trans (h ▸ filter_take_of_cut hcut' n)
  have hwords := congrArg (List.map Spelling.ofWord) htake
  rwa [List.map_take, List.map_take, ← spelling_lexemeOf, ← spelling_lexemeOf] at hwords

/-- The token at which the lexemes are divided. -/
theorem exists_token {n : Nat} {ps : List (Piece TokenKind)} {used rest : List Lexeme}
    (hkinds : ∀ p ∈ ps, p.word.kind ≠ .eof) (h : ps.map lexemeOf = used ++ rest) :
    ∃ t, (ps.map tokenOf ++ [eofAt n])[used.length]? = some t ∧ t.span = place ⟨n, 0⟩ rest ∧
      (t.isEof ↔ rest = []) := by
  obtain ⟨ps₁, ps₂, rfl, rfl, rfl⟩ := List.map_eq_append_iff.1 h
  cases ps₂ with
  | nil => exact ⟨eofAt n, by simp, rfl, by simp [eofAt, Token.isEof]⟩
  | cons p ps₂ =>
    have hp := hkinds p (by simp)
    exact ⟨tokenOf p, by simp, rfl, by simp [Token.isEof, tokenOf, hp]⟩

end Lexer

/-- Nothing is left to agree on. -/
theorem Parser.Agree.of_length {n : Nat} {ts us : List Lexeme} (h : Agree (ts.length + 1) ts us) :
    Agree n ts us := by
  have hlen := congrArg List.length h
  simp only [List.length_take, List.length_map] at hlen
  rw [Agree, List.take_of_length_le (by simp), List.take_of_length_le (by simp; omega)] at h
  rw [Agree, h]

theorem Parser.Stuck.unique {gs : List Goal} {ts : List Lexeme} {e e' : ParseError}
    (h : Stuck gs ts e) (h' : Stuck gs ts e') : e = e' := by
  obtain ⟨g, gs', rfl, hm⟩ := h
  obtain ⟨_, _, heq, hm'⟩ := h'
  obtain ⟨rfl, -⟩ := List.cons.inj heq
  exact Move.fail.inj (hm.symm.trans hm')

/-! Rejected sources. -/

theorem Lexer.isWord_keyword (k : Keyword) : IsWord .identifier k.spelling.toList := by
  have hne : k.spelling.toList ≠ [] := by cases k <;> decide
  have hhead : k.spelling.toList.head?.all isNameStart := by cases k <;> decide
  have htail : k.spelling.toList.tail.all isNameChar := by cases k <;> decide
  obtain ⟨c, cs, hcs⟩ := List.exists_cons_of_ne_nil hne
  rw [hcs] at hhead htail ⊢
  exact .identifier hhead (List.all_eq_true.1 htail)

theorem Parser.fillers_short :
    ∀ w ∈ fillers, Lexer.IsWord w.kind w.text ∧ byteLength w.text ≤ 4 := by
  intro w hw
  simp only [fillers, List.mem_cons, List.not_mem_nil, or_false] at hw
  rcases hw with rfl | rfl | rfl | rfl | rfl | rfl | rfl
  · exact ⟨.identifier (by decide) (by simp), by decide⟩
  · exact ⟨.mark .closing, by decide⟩
  · exact ⟨.mark .semicolon, by decide⟩
  · exact ⟨.mark .colon, by decide⟩
  · exact ⟨Lexer.isWord_keyword .THEN, by decide⟩
  · exact ⟨Lexer.isWord_keyword .DO, by decide⟩
  · exact ⟨Lexer.isWord_keyword .END, by decide⟩

theorem Lexer.byteLength_spaced {n : Nat} {ws : List Word} (h : ∀ w ∈ ws, byteLength w.text ≤ n) :
    byteLength (spaced ws) ≤ (n + 1) * ws.length := by
  induction ws with
  | nil => simp [spaced]
  | cons w ws ih =>
    obtain ⟨hw, hws⟩ := List.forall_mem_cons.1 h
    have := ih hws
    have hspace : (' ' : Char).utf8Size = 1 := by decide
    simp only [spaced, List.flatMap_cons, Text.byteLength_append, Text.byteLength_cons,
      List.length_cons, Nat.mul_add, hspace] at this ⊢
    omega

/-- Work on the lexemes of a source comes to a goal that fails. -/
def Rejects (ts rest : List Lexeme) (e : ParseError) : Prop :=
  ts ≠ [] ∧ ∃ gs, Runs [.block []] ts gs rest ∧ Stuck gs rest e

section Rejected

variable {source : String} {tokens : List Token} {ps : List (Piece TokenKind)}

/-- What the parser makes of a source that is lexed. -/
theorem parse_cases (hlen : byteLength source.toList ≤ Span.maxLength)
    (hcut : lexicon.Cut 0 source.toList ps) :
    (ps = [] ∧ parse source (ps.map tokenOf ++ [eofAt (byteLength source.toList)]) =
      failAt ⟨0, byteLength source.toList⟩ .emptySource) ∨
    (ps ≠ [] ∧
      ∃ program, parse source (ps.map tokenOf ++ [eofAt (byteLength source.toList)]) = .ok program ∧
      ∃ rest, Runs [.block []] (ps.map lexemeOf) [] rest) ∨
    ∃ used rest e, ps.map lexemeOf = used ++ rest ∧
      parse source (ps.map tokenOf ++ [eofAt (byteLength source.toList)]) =
        failAt (place ⟨byteLength source.toList, 0⟩ rest) e ∧
      OpensBlock used ∧ Rejects (ps.map lexemeOf) rest e := by
  obtain ⟨ps', hcut', htokens, hreading⟩ :=
    Lexer.exists_cut_of_lex (Lexer.lex_of_cut hlen hcut)
  obtain rfl := hcut.unique hcut'
  unfold parse
  dsimp only
  rw [hreading]
  dsimp only
  by_cases hnil : ps = []
  · have hspan : Span.ofBounds? 0 (byteLength source.toList) =
        some ⟨0, byteLength source.toList⟩ := by
      have := Span.ofBounds?_add 0 (byteLength source.toList)
      rwa [Nat.zero_add, if_pos (Span.fits_of_hi_le (by simpa [Span.hi] using hlen))] at this
    exact .inl ⟨hnil, by simp [hnil, hspan]⟩
  · rw [if_neg (by simpa using hnil)]
    refine .inr ?_
    have hsound := Lexer.sound_of_cut hcut
    have houtcome : Outcome ⟨byteLength source.toList, 0⟩ (ps.map lexemeOf) [.block []] OpensBlock
        (block ⟨byteLength source.toList, 0⟩ [] (ps.map lexemeOf)) := outcome_block hlen hsound
    rcases houtcome with ⟨h, hruns⟩ | ⟨hts, hr, hopen, hruns⟩
    · obtain ⟨_, h⟩ := h
      exact .inl ⟨hnil, _, by rw [h]; rfl, _, hruns []⟩
    · obtain ⟨gs, hrun, hstuck⟩ := hruns []
      exact .inr ⟨_, _, _, hts, by rw [hr]; rfl, hopen, by simpa using hnil, gs, hrun, hstuck⟩

/-- What an open block needs is short, and can be written after it. -/
theorem exists_completion {used rest : List Lexeme} (hcut : lexicon.Cut 0 source.toList ps)
    (hps : ps.map lexemeOf = used ++ rest) (h : OpensBlock used) :
    ∃ before after, source.toList = before ++ after ∧
      byteLength before = (place ⟨byteLength source.toList, 0⟩ rest).lo ∧
      ∃ more, byteLength more ≤ 5 * (used.length + 3) ∧
        (byteLength (before ++ more) ≤ Span.maxLength →
          ∃ program, parseProgram (String.ofList (before ++ more)) = .ok program) := by
  obtain ⟨ps₁, ps₂, rfl, rfl, rfl⟩ := List.map_eq_append_iff.1 hps
  obtain ⟨more, hmore, hroom, ss, hss, hne⟩ := h
  have hfillers : ∀ w ∈ more, Lexer.IsWord w.kind w.text ∧ byteLength w.text ≤ 4 := fun w hw =>
    fillers_short w (hmore w hw)
  obtain ⟨before, after, rs, hsource, hbefore, hcut', hrs⟩ :=
    Lexer.exists_cut_of_start hcut fun w hw => (hfillers w hw).1
  refine ⟨before, after, hsource, ?_, Lexer.spaced more, ?_, fun hlen => ?_⟩
  · rw [hbefore]
    cases ps₂ <;> rfl
  · refine Nat.le_trans (Lexer.byteLength_spaced fun w hw => (hfillers w hw).2) ?_
    rw [List.length_map] at hroom ⊢
    omega
  · have hleft : lexicon.Cut 0 (before ++ Lexer.spaced more) (ps₁ ++ rs) := hcut'
    have hwords : wordsOf ((ps₁ ++ rs).map lexemeOf) = wordsOf (ps₁.map lexemeOf) ++ more := by
      rw [Lexer.wordsOf_lexemeOf hleft.isWord, List.map_append, hrs,
        Lexer.wordsOf_lexemeOf fun p hp => hcut.isWord p (List.mem_append_left _ hp)]
    have hbegins := Begins.of_forall (Lexer.sound_of_cut hleft)
    rw [hwords] at hbegins
    obtain ⟨us, program, hus, hprogram, rfl⟩ := exists_blockAt hlen hss hbegins
    rw [List.append_nil] at hus
    refine ⟨program, (parseProgram_eq_ok_iff (by simpa using hlen)).2
      ⟨_, by simpa using hcut', hus ▸ hprogram, ?_⟩⟩
    rintro rfl
    exact hne rfl

/-- A source whose tokens agree up to the one after the error is rejected in the same way. -/
theorem parse_of_agree {source' : String} {ps' : List (Piece TokenKind)}
    {used rest : List Lexeme} {e : ParseError} {n : Nat}
    (hlen' : byteLength source'.toList ≤ Span.maxLength)
    (hcut' : lexicon.Cut 0 source'.toList ps') (hps : ps.map lexemeOf = used ++ rest)
    (h : Rejects (ps.map lexemeOf) rest e)
    (hn : n = if rest = [] then used.length + 1 else used.length + 2)
    (hagree : Agree n (ps.map lexemeOf) (ps'.map lexemeOf)) :
    ∃ t', (ps'.map tokenOf ++ [eofAt (byteLength source'.toList)])[used.length]? = some t' ∧
      parse source' (ps'.map tokenOf ++ [eofAt (byteLength source'.toList)]) =
        .error (.error ⟨t'.span, e⟩) := by
  obtain ⟨hne, gs, hrun, hstuck⟩ := h
  have hagree : Agree (used.length + 2) (ps.map lexemeOf) (ps'.map lexemeOf) := by
    split at hn
    · next hrest =>
      subst hrest hn
      rw [List.append_nil] at hps
      exact Agree.of_length (hps ▸ hagree)
    · exact hn ▸ hagree
  obtain ⟨used₀, hused, hgo⟩ := hrun.of_agree
  obtain rfl := List.append_cancel_right (hps.symm.trans hused)
  obtain ⟨used', rest', hps', hlength, hagree', hrun'⟩ := hgo _ hagree
  have hstuck' := hstuck.of_agree hagree'
  -- the work on the other source comes to the same goal, which is its only end
  have hkinds : ∀ p ∈ ps', p.word.kind ≠ .eof := fun p hp => Lexer.IsWord.ne_eof (hcut'.isWord p hp)
  obtain ⟨t', ht', hspan, -⟩ := Lexer.exists_token hkinds hps'
  refine ⟨t', hlength ▸ ht', ?_⟩
  rcases parse_cases hlen' hcut' with ⟨rfl, -⟩ | ⟨-, program, -, rest'', hrun''⟩ |
    ⟨used'', rest'', e'', hps'', hparse, -, -, gs'', hrun'', hstuck''⟩
  · -- the other source has a token, since this one has
    obtain ⟨t, ts, hts⟩ := List.exists_cons_of_ne_nil hne
    have := hagree.look_eq
    rw [hts] at this
    cases this
  · obtain ⟨rfl, -⟩ := hrun'.unique (.inr ⟨e, hstuck'⟩) hrun'' (.inl rfl)
    obtain ⟨_, _, hnil, -⟩ := hstuck'
    cases hnil
  · obtain ⟨rfl, rfl⟩ := hrun'.unique (.inr ⟨e, hstuck'⟩) hrun'' (.inr ⟨e'', hstuck''⟩)
    rw [hparse, hstuck'.unique hstuck'', hspan]
    rfl

end Rejected

/-- The error `e` about token `k` is reported neither too late nor too early. -/
structure RejectedAt (source : String) (tokens : List Token) (k : Nat) (t : Token)
    (e : ParseError) : Prop where
  /-- The text before the token can be completed, unless it is too long for that. -/
  viable : ∃ before after, source.toList = before ++ after ∧ byteLength before = t.span.lo ∧
    ∃ more, byteLength more ≤ 5 * (k + 3) ∧
      (byteLength (before ++ more) ≤ Span.maxLength →
        ∃ program, parseProgram (String.ofList (before ++ more)) = .ok program)
  /-- Any source with these tokens up to the one after `k` is rejected in the same way. -/
  decided : ∀ source' tokens', byteLength source'.toList ≤ Span.maxLength →
    Lexer.lex source' = ⟨tokens', none⟩ →
    ((tokens.take (if t.isEof then k + 1 else k + 2)).map (Token.word? source.toList) =
      (tokens'.take (if t.isEof then k + 1 else k + 2)).map (Token.word? source'.toList)) →
    ∃ t', tokens'[k]? = some t' ∧ parse source' tokens' = .error (.error ⟨t'.span, e⟩)

/-- Every source that is lexed is empty, or a program, or rejected at one of its tokens. -/
theorem rejectedAt_of_parse (source : String) (tokens : List Token)
    (hlen : byteLength source.toList ≤ Span.maxLength)
    (hlex : Lexer.lex source = ⟨tokens, none⟩) :
    ((∃ span, parse source tokens = .error (.error ⟨span, .emptySource⟩)) ↔
      ∃ t, tokens.head? = some t ∧ t.isEof) ∧
    ∀ f, parse source tokens = .error f →
      ∃ span e, f = .error ⟨span, e⟩ ∧ (e = .emptySource ∨
        ∃ k t, tokens[k]? = some t ∧ t.span = span ∧ RejectedAt source tokens k t e) := by
  obtain ⟨ps, hcut, rfl, -⟩ := Lexer.exists_cut_of_lex hlex
  have hkinds : ∀ p ∈ ps, p.word.kind ≠ .eof := fun p hp => Lexer.IsWord.ne_eof (hcut.isWord p hp)
  have hhead : (∃ t, (ps.map tokenOf ++ [eofAt (byteLength source.toList)]).head? = some t ∧
      t.isEof) ↔ ps = [] := by
    cases ps with
    | nil => simp [eofAt, Token.isEof]
    | cons p ps => simp [tokenOf, Token.isEof, hkinds p (by simp)]
  rw [hhead]
  rcases parse_cases hlen hcut with ⟨hnil, hparse⟩ | ⟨hne, program, hparse, -⟩ |
    ⟨used, rest, e, hps, hparse, hopen, hrejects⟩
  · rw [hparse]
    refine ⟨⟨fun _ => hnil, fun _ => ⟨_, rfl⟩⟩, fun f hf => ?_⟩
    cases hf
    exact ⟨_, _, rfl, .inl rfl⟩
  · rw [hparse]
    exact ⟨⟨by simp, fun hnil => absurd hnil hne⟩, by simp⟩
  · rw [hparse]
    obtain ⟨hne, gs, hrun, hstuck⟩ := hrejects
    refine ⟨⟨?_, fun hnil => absurd (by simp [hnil]) hne⟩, fun f hf => ?_⟩
    · rintro ⟨span, h⟩
      obtain ⟨g, gs', -, hm⟩ := hstuck
      cases h
      exact absurd rfl (Goal.move_ne_fail hm).1
    · cases hf
      obtain ⟨t, ht, hspan, heof⟩ := Lexer.exists_token hkinds hps
      refine ⟨_, e, rfl, .inr ⟨used.length, t, ht, hspan, ?_, ?_⟩⟩
      · rw [hspan]
        exact exists_completion hcut hps hopen
      · intro source' tokens' hlen' hlex' hwords
        obtain ⟨ps', hcut', rfl, -⟩ := Lexer.exists_cut_of_lex hlex'
        have hagree := Lexer.agree_of_words hcut hcut' hwords
        refine parse_of_agree hlen' hcut' hps ⟨hne, gs, hrun, hstuck⟩ ?_ hagree
        simp only [heof]

theorem rejectedAt_of_unclosed_call :
    byteLength "IF a THEN f(1; END".toList ≤ Span.maxLength ∧
    Lexer.lex "IF a THEN f(1; END" = ⟨(Lexer.lex "IF a THEN f(1; END").tokens, none⟩ ∧
    ∃ k t, (Lexer.lex "IF a THEN f(1; END").tokens[k]? = some t ∧ t.span = ⟨13, 1⟩ ∧
      RejectedAt "IF a THEN f(1; END" (Lexer.lex "IF a THEN f(1; END").tokens k t
        (.unexpectedAny [.mark .comma, .mark .closing] (.mark .semicolon)) := by
  have hlen : byteLength "IF a THEN f(1; END".toList ≤ Span.maxLength := by decide
  have hlex : Lexer.lex "IF a THEN f(1; END" = ⟨(Lexer.lex "IF a THEN f(1; END").tokens, none⟩ := by
    decide +kernel
  have hparse : (match parse "IF a THEN f(1; END" (Lexer.lex "IF a THEN f(1; END").tokens with
      | .error f => decide (f = .error ⟨⟨13, 1⟩,
          .unexpectedAny [.mark .comma, .mark .closing] (.mark .semicolon)⟩)
      | .ok _ => false) = true := by decide +kernel
  refine ⟨hlen, hlex, ?_⟩
  split at hparse
  · next f hf =>
    obtain ⟨span, e, rfl, hcases⟩ := (rejectedAt_of_parse _ _ hlen hlex).2 f hf
    cases of_decide_eq_true hparse
    rcases hcases with hempty | ⟨k, t, ht, hspan, h⟩
    · cases hempty
    · exact ⟨k, t, ht, hspan, h⟩
  · cases hparse

end LetLang
