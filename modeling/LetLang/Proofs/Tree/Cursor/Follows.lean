import LetLang.Proofs.Tree.Cursor.Walk
import LetLang.Proofs.Tree.Reads

/-!
What a walk has to do with a reader. The reader is given the lexemes from the place of the cursor on.
A walk follows it if it ends as the reader does, with the cursor at what the reader leaves, and looks
at no token behind the first `eof`.
-/

namespace LetLang

open Parser (ParseResult Parsed failNext take?)

namespace Token

variable {source : List Char} {t : Token}

/-- What an identifier spells, if it can be read. -/
theorem identifier_cases (source : List Char) (h : t.kind = .identifier) :
    ((t.keyword? source : Result (Located ParseError) _) = .error .abort ∧
        t.spelling source = .unreadable .identifier) ∨
      (∃ k, (t.keyword? source : Result (Located ParseError) _) = .ok (some k) ∧
        t.spelling source = .keyword k) ∨
      ∃ text, (t.keyword? source : Result (Located ParseError) _) = .ok none ∧
        t.text? source = some text ∧ t.spelling source = .name text := by
  simp only [keyword?, spelling, h, if_true]
  cases t.text? source with
  | none => exact .inl ⟨rfl, rfl⟩
  | some text =>
    dsimp only [Spelling.ofIdentifier]
    cases hk : Keyword.ofText? text with
    | none => exact .inr (.inr ⟨text, rfl, rfl, rfl⟩)
    | some k => exact .inr (.inl ⟨k, rfl, rfl⟩)

/-- What is known of a token once its keyword has been asked for. -/
theorem keyword?_cases (source : List Char) (t : Token) :
    ((t.keyword? source : Result (Located ParseError) _) = .error .abort ∧
        t.spelling source = .unreadable .identifier) ∨
      (∃ k, (t.keyword? source : Result (Located ParseError) _) = .ok (some k) ∧
        t.spelling source = .keyword k) ∨
      (t.keyword? source : Result (Located ParseError) _) = .ok none ∧
        t.spelling source ≠ .unreadable .identifier ∧ ∀ k, t.spelling source ≠ .keyword k := by
  by_cases hkind : t.kind = .identifier
  · rcases identifier_cases source hkind with h | h | ⟨text, hk, -, hs⟩
    · exact .inl h
    · exact .inr (.inl h)
    · exact .inr (.inr ⟨hk, by simp [hs], by simp [hs]⟩)
  · -- any other kind is spelled otherwise
    have hspelling : ∀ s : Spelling, s.kind = .identifier → t.spelling source ≠ s := by
      rintro _ hs rfl
      exact hkind (kind_spelling source t ▸ hs)
    exact .inr (.inr ⟨if_neg hkind, hspelling _ rfl, fun k => hspelling _ rfl⟩)

theorem kind_of_spelling {s : Spelling} (h : t.spelling source = s) : t.kind = s.kind := by
  rw [← h, kind_spelling]

theorem spelling_eq_mark_iff {m : Mark} : t.spelling source = .mark m ↔ t.kind = .mark m := by
  constructor
  · exact kind_of_spelling
  · intro h
    rw [spelling, h]

end Token

theorem Parser.ident_other {finish : Span} {ts : List Lexeme}
    (h : ∀ t rest, ts = t :: rest → t.spelling.kind ≠ .identifier) :
    Parser.ident finish ts = failNext finish ts (.unexpected (.token .identifier)) := by
  cases ts with
  | nil => rfl
  | cons t rest =>
    obtain ⟨spelling, span⟩ := t
    have hkind := h _ _ rfl
    cases spelling with
    | keyword k => exact absurd rfl hkind
    | name text => exact absurd rfl hkind
    | unreadable kind =>
      cases kind with
      | identifier => exact absurd rfl hkind
      | _ => rfl
    | _ => rfl

namespace Tape

variable (tape : Tape)

def reading : Reading := .ofTokens tape.source tape.tokens

/-- The place of the first `eof`. -/
def length : Nat := tape.tokens.findIdx Token.isEof

/-- What is read from a place on. -/
def rest (i : Nat) : List Lexeme := tape.reading.lexemes.drop i

theorem lexemes_eq :
    tape.reading.lexemes = (tape.tokens.take tape.length).map (Token.lexeme tape.source) := by
  simp only [reading, Reading.ofTokens, length, List.takeWhile_eq_take_findIdx_not, Bool.not_not]

theorem length_rest (i : Nat) : (tape.rest i).length = tape.length - i := by
  have h : tape.length ≤ tape.tokens.length := List.findIdx_le_length
  rw [rest, lexemes_eq, List.length_drop, List.length_map, List.length_take, Nat.min_eq_left h]

variable {tape}

theorem rest_cons {i : Nat} (h : i < tape.length) :
    tape.rest i = (tape.tokenAt i).lexeme tape.source :: tape.rest (i + 1) ∧
      (tape.tokenAt i).kind ≠ .eof := by
  have hlt : i < tape.tokens.length := Nat.lt_of_lt_of_le h List.findIdx_le_length
  have hat : tape.tokenAt i = tape.tokens[i] := by
    rw [tokenAt, List.getElem?_eq_getElem hlt, Option.getD_some]
  have hi : i < ((tape.tokens.take tape.length).map (Token.lexeme tape.source)).length := by
    rw [List.length_map, List.length_take]
    omega
  constructor
  · rw [rest, rest, lexemes_eq, List.drop_eq_getElem_cons hi, hat, List.getElem_map,
      List.getElem_take]
  · have hnot : Token.isEof tape.tokens[i] = false := by
      simpa using List.not_of_lt_findIdx h
    simpa [hat, Token.isEof] using hnot

theorem rest_length : tape.rest tape.length = [] := by
  rw [← List.length_eq_zero_iff, length_rest, Nat.sub_self]

theorem isEof_tokenAt {i : Nat} (h : i < tape.length) : (tape.tokenAt i).isEof = false := by
  simpa [Token.isEof] using (rest_cons h).2

theorem tokenAt_length : tape.tokenAt tape.length = ⟨.eof, tape.reading.finish⟩ := by
  rw [tokenAt, length, ← List.find?_eq_getElem?_findIdx, reading, Reading.ofTokens]
  cases ht : tape.tokens.find? Token.isEof with
  | none => rfl
  | some t =>
    obtain ⟨kind, span⟩ := t
    obtain rfl : kind = .eof := by simpa [Token.isEof] using List.find?_some ht
    rfl

theorem isEof_tokenAt_length : (tape.tokenAt tape.length).isEof = true := by
  rw [tokenAt_length]
  rfl

variable (tape) {α β : Type} {m n : Nat}

/-- All that is looked at lies before the first `eof` or is it. -/
structure Holds (c : Cursor) : Prop where
  place : c.place ≤ tape.length
  furthest : c.furthest ≤ tape.length

/-- From a place on, a walk ends as a reader does, and never goes back. -/
def Follows (i : Nat) (w : Walk α) (r : ParseResult α n) : Prop :=
  ∀ c, tape.Holds c → c.place = i → ∃ c', w.run.run c = some (r.map Parsed.value, c') ∧
    tape.Holds c' ∧ i ≤ c'.place ∧ ∀ p, r = .ok p → p.rest = tape.rest c'.place

variable {tape} {i : Nat}

namespace Follows

theorem pure {a : α} {h : (tape.rest i).length < n} :
    tape.Follows i (pure a) (.ok ⟨a, tape.rest i, h⟩ : ParseResult α n) := by
  rintro c hc rfl
  refine ⟨c, rfl, hc, Nat.le_refl _, ?_⟩
  rintro _ ⟨⟩
  rfl

theorem error {f : Failure (Located ParseError)} :
    tape.Follows i (give (.error f) : Walk α) (.error f : ParseResult α n) := by
  rintro c hc rfl
  refine ⟨c, rfl, hc, Nat.le_refl _, ?_⟩
  rintro _ ⟨⟩

/-- What is done next starts where the reader has left off. -/
theorem bind {w : Walk α} {f : α → Walk β} {r : ParseResult α m} {g : Parsed α m → ParseResult β n}
    (hw : tape.Follows i w r)
    (hf : ∀ a j h, i ≤ j → r = .ok ⟨a, tape.rest j, h⟩ →
      tape.Follows j (f a) (g ⟨a, tape.rest j, h⟩)) :
    tape.Follows i (w >>= f) (r >>= g) := by
  rintro c hc hi
  obtain ⟨c', hrun, hc', hle, hrest⟩ := hw c hc hi
  rw [Walk.run_bind, hrun]
  cases r with
  | error e =>
    refine ⟨c', rfl, hc', hle, ?_⟩
    rintro _ ⟨⟩
  | ok p =>
    obtain ⟨a, rest, h⟩ := p
    obtain rfl : rest = tape.rest c'.place := hrest _ rfl
    obtain ⟨c'', hrun', hc'', hle', hrest'⟩ := hf a c'.place h hle rfl c' hc' rfl
    exact ⟨c'', hrun', hc'', Nat.le_trans hle hle', hrest'⟩

theorem relaxed {w : Walk α} {r : ParseResult α m} {hn : ∀ p : Parsed α m, p.rest.length < n}
    (h : tape.Follows i w r) :
    tape.Follows i w (r >>= fun p => (.ok ⟨p.value, p.rest, hn p⟩ : ParseResult α n)) := by
  conv in w => rw [← bind_pure w]
  exact h.bind fun a j _ _ _ => pure

theorem give {x : Result (Located ParseError) α} {f : α → Walk β} {g : α → ParseResult β n}
    (h : ∀ a, x = .ok a → tape.Follows i (f a) (g a)) :
    tape.Follows i (give x >>= f) (x >>= g) := by
  cases x with
  | error e => exact error
  | ok a => exact h a rfl

/-! The steps that a reader has no part in. -/

variable {r : ParseResult β n} {f : Token → Walk β}

theorem tick {f : Unit → Walk β} (h : tape.Follows i (f ()) r) :
    tape.Follows i (tick >>= f) r := fun _ hc hi => h _ ⟨hc.place, hc.furthest⟩ hi

theorem peek (h : tape.Follows i (f (tape.tokenAt i)) r) :
    tape.Follows i (tape.peek 0 >>= f) r := by
  rintro c hc rfl
  exact h _ ⟨hc.place, Nat.max_le.2 ⟨hc.furthest, hc.place⟩⟩ rfl

theorem peek_next (hi : i < tape.length) (h : tape.Follows i (f (tape.tokenAt (i + 1))) r) :
    tape.Follows i (tape.peek 1 >>= f) r := by
  rintro c hc rfl
  exact h _ ⟨hc.place, Nat.max_le.2 ⟨hc.furthest, hi⟩⟩ rfl

theorem advance (hi : i < tape.length) (h : tape.Follows (i + 1) (f (tape.tokenAt i)) r) :
    tape.Follows i (tape.advance >>= f) r := by
  rw [Tape.advance, bind_assoc]
  refine peek ?_
  rw [isEof_tokenAt hi]
  rintro c hc rfl
  obtain ⟨c', hrun, hc', hle, hrest⟩ := h { c with place := c.place + 1 } ⟨hi, hc.furthest⟩ rfl
  exact ⟨c', hrun, hc', Nat.le_of_succ_le hle, hrest⟩

/-- At the end, the cursor stays. -/
theorem advance_end (hi : i = tape.length) (h : tape.Follows i (f (tape.tokenAt i)) r) :
    tape.Follows i (tape.advance >>= f) r := by
  subst hi
  rw [Tape.advance, bind_assoc]
  refine peek ?_
  rw [isEof_tokenAt_length]
  exact h

end Follows

/-! The readers of one lexeme. -/

theorem give_ok (a : α) : give (.ok a) = (pure a : Walk α) := rfl

theorem lt_length (hi : i ≤ tape.length) (h : (tape.tokenAt i).kind ≠ .eof) : i < tape.length := by
  refine Nat.lt_of_le_of_ne hi ?_
  rintro rfl
  rw [tokenAt_length] at h
  exact h rfl

theorem lt_of_identifier (hi : i ≤ tape.length) (h : (tape.tokenAt i).kind = .identifier) :
    i < tape.length := lt_length hi (by simp [h])

theorem failNext_rest (hi : i ≤ tape.length) {e : TokenKind → ParseError} :
    (failNext tape.reading.finish (tape.rest i) e : Result (Located ParseError) α) =
      Parser.failAt (tape.tokenAt i).span (e (tape.tokenAt i).kind) := by
  rcases Nat.lt_or_eq_of_le hi with hlt | rfl
  · rw [(rest_cons hlt).1, failNext, Token.lexeme, Token.kind_spelling]
  · rw [rest_length, tokenAt_length]
    rfl

theorem take?_rest {s : Spelling} (hi : i < tape.length)
    (hs : (tape.tokenAt i).spelling tape.source = s) :
    ∃ h, take? s (tape.rest i) = some ⟨(tape.tokenAt i).span, tape.rest (i + 1), h⟩ := by
  have hcons := (rest_cons hi).1
  refine ⟨by rw [hcons]; exact Nat.lt_succ_self _, ?_⟩
  rw [Parser.take?_eq_some_iff, hcons, Token.lexeme, hs]

theorem take?_rest_other {s : Spelling} (hi : i ≤ tape.length)
    (hs : (tape.tokenAt i).spelling tape.source ≠ s) : take? s (tape.rest i) = none := by
  rw [Parser.take?_eq_none_iff]
  rintro span rest hcons
  rcases Nat.lt_or_eq_of_le hi with hlt | rfl
  · rw [(rest_cons hlt).1] at hcons
    cases hcons
    exact hs rfl
  · rw [rest_length] at hcons
    cases hcons

/-- A mark at the cursor is the first of what is read. -/
theorem take?_mark {m : Mark} (hi : i ≤ tape.length) (h : (tape.tokenAt i).kind = .mark m) :
    i < tape.length ∧ ∃ hshort, take? (.mark m) (tape.rest i) =
      some ⟨(tape.tokenAt i).span, tape.rest (i + 1), hshort⟩ := by
  have hlt : i < tape.length := lt_length hi (by simp [h])
  exact ⟨hlt, take?_rest hlt (Token.spelling_eq_mark_iff.2 h)⟩

theorem take?_mark_other {m : Mark} (hi : i ≤ tape.length)
    (h : (tape.tokenAt i).kind ≠ .mark m) : take? (.mark m) (tape.rest i) = none :=
  take?_rest_other hi (mt Token.spelling_eq_mark_iff.1 h)

namespace Follows

/-- The place that a walk starts at may be taken to be in range. -/
theorem of_le {w : Walk β} {r : ParseResult β n} (h : i ≤ tape.length → tape.Follows i w r) :
    tape.Follows i w r := by
  rintro c hc rfl
  exact h hc.place c hc rfl

theorem failNext {w : Walk β} {e : TokenKind → ParseError}
    (h : i ≤ tape.length → w = failAt (tape.tokenAt i).span (e (tape.tokenAt i).kind)) :
    tape.Follows i w (Parser.failNext tape.reading.finish (tape.rest i) e : ParseResult β n) := by
  refine of_le fun hi => ?_
  rw [h hi, failNext_rest hi]
  exact error

theorem isNext {kind : TokenKind} {g : Bool → Walk β} {r : ParseResult β n}
    (h : tape.Follows i (g ((tape.tokenAt i).kind = kind)) r) :
    tape.Follows i (tape.isNext kind >>= g) r := by
  rw [Tape.isNext, bind_assoc]
  exact peek h

theorem consume {kind : TokenKind} {f : Token → Walk β} {r : ParseResult β n}
    (hi : i < tape.length) (hk : (tape.tokenAt i).kind = kind)
    (h : tape.Follows (i + 1) (f (tape.tokenAt i)) r) :
    tape.Follows i (tape.consume kind >>= f) r := by
  rw [Tape.consume, bind_assoc]
  refine peek ?_
  rw [if_pos hk, bind_assoc]
  exact advance hi h

theorem consume_other {kind : TokenKind} {f : Token → Walk β} {r : ParseResult β n}
    (hk : (tape.tokenAt i).kind ≠ kind)
    (h : r = Parser.failAt (tape.tokenAt i).span
      (.unexpected (.token kind) (tape.tokenAt i).kind)) :
    tape.Follows i (tape.consume kind >>= f) r := by
  rw [Tape.consume, bind_assoc]
  refine peek ?_
  rw [if_neg hk, h]
  exact error

theorem take {m : Mark} {g : Bool → Walk β} {r : ParseResult β n}
    (hyes : i < tape.length → (tape.tokenAt i).kind = .mark m → tape.Follows (i + 1) (g true) r)
    (hno : (tape.tokenAt i).kind ≠ .mark m → tape.Follows i (g false) r) :
    tape.Follows i (tape.take (.mark m) >>= g) r := by
  refine of_le fun hi => ?_
  rw [Tape.take, bind_assoc]
  refine isNext ?_
  by_cases hk : (tape.tokenAt i).kind = .mark m
  · obtain ⟨hlt, -⟩ := take?_mark hi hk
    rw [decide_eq_true hk, if_pos rfl, bind_assoc]
    exact advance hlt (hyes hlt hk)
  · rw [decide_eq_false hk]
    exact hno hk

theorem mark {m : Mark} {f : Token → Walk β}
    {g : Parsed Span (tape.rest i).length → ParseResult β n}
    (h : ∀ t hlt, tape.Follows (i + 1) (f t) (g ⟨t.span, tape.rest (i + 1), hlt⟩)) :
    tape.Follows i (tape.consume (.mark m) >>= f)
      (Parser.mark tape.reading.finish m (tape.rest i) >>= g) := by
  refine of_le fun hi => ?_
  rw [Parser.mark]
  by_cases hk : (tape.tokenAt i).kind = .mark m
  · obtain ⟨hlt, hshort, htake⟩ := take?_mark hi hk
    rw [htake]
    exact consume hlt hk (h _ hshort)
  · rw [take?_mark_other hi hk]
    dsimp only
    rw [failNext_rest hi]
    exact consume_other hk rfl

theorem groupEnd {f : Token → Walk β} {g : Parsed Span (tape.rest i).length → ParseResult β n}
    (h : ∀ t hlt, tape.Follows (i + 1) (f t) (g ⟨t.span, tape.rest (i + 1), hlt⟩)) :
    tape.Follows i
      (tape.peek 0 >>= fun t => if t.kind ≠ .mark .closing then failAt t.span .unclosedGroup
        else tape.advance >>= fun _ => f t)
      (Parser.groupEnd tape.reading.finish (tape.rest i) >>= g) := by
  refine of_le fun hi => peek ?_
  rw [Parser.groupEnd]
  by_cases hk : (tape.tokenAt i).kind = .mark .closing
  · obtain ⟨hlt, hshort, htake⟩ := take?_mark hi hk
    rw [if_neg fun h => h hk, htake]
    exact advance hlt (h _ hshort)
  · rw [if_pos hk, take?_mark_other hi hk]
    dsimp only
    rw [failNext_rest hi]
    exact error

theorem keyword {k : Keyword} {f : Token → Walk β}
    {g : Parsed Span (tape.rest i).length → ParseResult β n}
    (h : ∀ t hlt, tape.Follows (i + 1) (f t) (g ⟨t.span, tape.rest (i + 1), hlt⟩)) :
    tape.Follows i (tape.consumeKeyword k >>= f)
      (Parser.keyword tape.reading.finish k (tape.rest i) >>= g) := by
  refine of_le fun hi => ?_
  rw [consumeKeyword, bind_assoc, Parser.keyword]
  refine peek ?_
  rw [keyword?]
  rcases Token.keyword?_cases tape.source (tape.tokenAt i) with
    ⟨hread, hs⟩ | ⟨k', hread, hs⟩ | ⟨hread, hunreadable, hs⟩
  · -- an identifier that cannot be read
    have hlt := lt_of_identifier hi (Token.kind_of_spelling hs)
    obtain ⟨_, htake⟩ := take?_rest hlt hs
    rw [hread, take?_rest_other hi (by simp [hs]), htake]
    exact error
  · have hlt := lt_of_identifier hi (Token.kind_of_spelling hs)
    rw [hread, give_ok, pure_bind]
    by_cases heq : k' = k
    · obtain ⟨hshort, htake⟩ := take?_rest hlt (heq ▸ hs)
      rw [if_pos (congrArg some heq), htake, bind_assoc]
      exact advance hlt (h _ hshort)
    · rw [if_neg (mt Option.some.inj heq), take?_rest_other hi (by rw [hs]; simpa using heq),
        take?_rest_other hi (by simp [hs])]
      dsimp only
      rw [Option.isSome_none, if_neg Bool.false_ne_true, failNext_rest hi]
      exact error
  · rw [hread, give_ok, pure_bind, if_neg (by simp), take?_rest_other hi (hs k),
      take?_rest_other hi hunreadable]
    dsimp only
    rw [Option.isSome_none, if_neg Bool.false_ne_true, failNext_rest hi]
    exact error

theorem ident :
    tape.Follows i tape.ident (Parser.ident tape.reading.finish (tape.rest i)) := by
  refine of_le fun hi => ?_
  rw [Tape.ident]
  by_cases hkind : (tape.tokenAt i).kind = .identifier
  · have hlt : i < tape.length := lt_of_identifier hi hkind
    have hcons := (rest_cons hlt).1
    refine consume hlt hkind ?_
    rw [keyword?, hcons]
    unfold Parser.ident Token.lexeme
    rcases Token.identifier_cases tape.source hkind with
      ⟨hread, hs⟩ | ⟨k, hread, hs⟩ | ⟨text, hread, htext, hs⟩
    · rw [hs, hread]
      exact error
    · rw [hs, hread]
      exact error
    · rw [hs, hread, give_ok, pure_bind]
      dsimp only
      rw [identOf, Tape.text, htext]
      exact pure
  · rw [Parser.ident_other]
    · rw [failNext_rest hi]
      exact consume_other hkind rfl
    · intro t after hcons
      rcases Nat.lt_or_eq_of_le hi with hlt | rfl
      · rw [(rest_cons hlt).1] at hcons
        cases hcons
        rwa [Token.lexeme, Token.kind_spelling]
      · rw [rest_length] at hcons
        cases hcons

end Follows

end Tape

end LetLang
