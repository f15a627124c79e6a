import LetLang.Proofs.Tree.Cursor.Follows

/-!
Expressions with a cursor. Each call follows its reader, if it may go as deep as the bound by which
the reader ends.
-/

namespace LetLang

theorem Token.operator?_spelling (source : List Char) (t : Token) :
    Parser.operator? (t.spelling source) = Tape.operator? t.kind := by
  cases hkind : t.kind with
  | mark m =>
    rw [spelling_eq_mark_iff.2 hkind]
    rfl
  | _ =>
    have hspelling : ∀ m, t.spelling source ≠ .mark m := by
      intro m hm
      rw [spelling_eq_mark_iff.1 hm] at hkind
      cases hkind
    unfold Parser.operator?
    split
    · next hm => exact absurd hm (hspelling _)
    · rfl

namespace Tape

variable {tape : Tape} {α : Type}

theorem stops_rest {i power : Nat} (hi : i ≤ tape.length)
    (h : ∀ op, operator? (tape.tokenAt i).kind = some op → op.leftPower < power) :
    Parser.Stops power (tape.rest i) := by
  intro t after op hcons hop
  rcases Nat.lt_or_eq_of_le hi with hlt | rfl
  · rw [(rest_cons hlt).1] at hcons
    cases hcons
    exact h op (by rw [← Token.operator?_spelling tape.source]; exact hop)
  · rw [rest_length] at hcons
    cases hcons

/-- The arguments before a closing parenthesis, and its span. -/
def closed (tape : Tape) (w : Walk (List (Expr .parsed))) : Walk (List (Expr .parsed) × Span) := do
  let args ← w
  let stop ← tape.consume (.mark .closing)
  return (args, stop.span)

theorem closed_bind {w : Walk (List (Expr .parsed))} {f : List (Expr .parsed) → Span → Walk α} :
    (w >>= fun args => tape.consume (.mark .closing) >>= fun stop => f args stop.span) =
      tape.closed w >>= fun x => f x.1 x.2 := by
  simp only [closed, bind_assoc, pure_bind]

/-- A literal is read if its text can be cut out. -/
theorem follows_literal {i : Nat} {t : Token} {text? : Option String} (kind : TokenKind)
    (spell : String → Spelling) {value : String → RawLiteral}
    (hspell : ∀ s, Parser.literal? (spell s) = some (value s))
    (ht : t.spelling tape.source = text?.elim (.unreadable kind) spell) :
    tape.Follows i (give (Result.ofOption text?) >>= fun s => pure (.literal (value s) t.span ()))
      (Parser.operand tape.reading.finish (t.lexeme tape.source :: tape.rest i)) := by
  rw [Token.lexeme, ht]
  cases text? with
  | none =>
    rw [Option.elim_none, Parser.operand]
    exact .error
  | some s =>
    rw [Option.elim_some]
    obtain ⟨_, hread⟩ := (Parser.reads_operand_literal (t := ⟨spell s, t.span⟩) (hspell s)).2
      ⟨rfl, rfl⟩
    rw [hread]
    exact .pure

mutual

theorem follows_expr (depth power i : Nat) (h : 3 * (tape.rest i).length + 1 < depth) :
    tape.Follows i (tape.expr depth power)
      (Parser.expr tape.reading.finish power (tape.rest i)) := by
  obtain ⟨depth, rfl⟩ := Nat.exists_eq_add_one_of_ne_zero (Nat.ne_zero_of_lt h)
  rw [expr, Parser.expr]
  refine .tick ?_
  rw [← bind_assoc]
  refine (follows_operand depth i (by omega)).bind fun lhs j hshort _ _ => ?_
  exact (follows_operators depth power j lhs (by omega)).relaxed

theorem follows_operators (depth power i : Nat) (lhs : Expr .parsed)
    (h : 3 * (tape.rest i).length < depth) :
    tape.Follows i (tape.operators depth power lhs)
      (Parser.operators tape.reading.finish power lhs (tape.rest i)) := by
  obtain ⟨depth, rfl⟩ := Nat.exists_eq_add_one_of_ne_zero (Nat.ne_zero_of_lt h)
  refine .of_le fun hi => ?_
  -- where no operator is held, nothing is read
  have hdone : (∀ op, operator? (tape.tokenAt i).kind = some op → op.leftPower < power) →
      tape.Follows i (pure lhs) (Parser.operators tape.reading.finish power lhs (tape.rest i)) := by
    intro hpower
    obtain ⟨_, hread⟩ := Parser.reads_operators_stop (stops_rest hi hpower)
    rw [hread]
    exact .pure
  rw [operators]
  refine .tick (.peek ?_)
  cases hop : operator? (tape.tokenAt i).kind with
  | none => exact hdone (by simp [hop])
  | some op =>
    by_cases hpower : op.leftPower < power
    · dsimp only
      rw [if_pos hpower]
      exact hdone (by simpa [hop] using hpower)
    · have hlt : i < tape.length := lt_length hi fun heof => by simp [heof, operator?] at hop
      have hcons := (rest_cons hlt).1
      rw [← Token.operator?_spelling tape.source] at hop
      rw [hcons] at h ⊢
      rw [List.length_cons] at h
      rw [Parser.operators, Token.lexeme]
      simp only [hop]
      rw [if_neg hpower, if_neg hpower]
      refine .advance hlt ?_
      refine (follows_expr depth op.rightPower (i + 1) (by omega)).bind fun rhs j hshort _ _ => ?_
      refine .give fun span _ => ?_
      exact (follows_operators depth power j _ (by omega)).relaxed

theorem follows_operand (depth i : Nat) (h : 3 * (tape.rest i).length < depth) :
    tape.Follows i (tape.advance >>= fun t => tape.operand depth t)
      (Parser.operand tape.reading.finish (tape.rest i)) := by
  obtain ⟨depth, rfl⟩ := Nat.exists_eq_add_one_of_ne_zero (Nat.ne_zero_of_lt h)
  refine .of_le fun hi => ?_
  rcases Nat.lt_or_eq_of_le hi with hlt | heq
  · refine .advance hlt ?_
    obtain ⟨hcons, hnot⟩ := rest_cons hlt
    rw [hcons] at h ⊢
    rw [List.length_cons] at h
    generalize tape.tokenAt i = t at hnot ⊢
    rw [operand]
    refine .tick ?_
    cases hkind : t.kind with
    | identifier =>
      rw [Parser.operand, Token.lexeme]
      rcases Token.identifier_cases tape.source hkind with
        ⟨hread, hs⟩ | ⟨k, hread, hs⟩ | ⟨text, hread, htext, hs⟩
      · simp only [hs, keyword?, hread]
        exact .error
      · simp only [hs, keyword?, hread, give_ok, pure_bind]
        cases k with
        | TRUE => exact .pure
        | FALSE => exact .pure
        | _ => exact .error
      · simp only [hs, keyword?, hread, give_ok, pure_bind, identOf, Tape.text, htext,
          Result.ofOption]
        refine .of_le fun hi' => .take (fun hlt' hk => ?_) fun hk => ?_
        · obtain ⟨-, hshort, htake⟩ := take?_mark hi' hk
          rw [htake, if_pos rfl]
          dsimp only
          rw [closed_bind (f := fun args close => joined t.span close >>= fun span =>
            pure (Expr.call ⟨text, t.span⟩ args () span ()))]
          refine (follows_arguments depth (i + 1 + 1) (by omega)).bind fun x j _ _ _ => ?_
          exact .give fun span _ => .pure
        · rw [take?_mark_other hi' hk]
          exact .pure
    | integer =>
      exact follows_literal .integer .integer (fun _ => rfl) (by
        rw [Token.spelling, hkind]
        cases t.text? tape.source <;> rfl)
    | decimal =>
      exact follows_literal .decimal .decimal (fun _ => rfl) (by
        rw [Token.spelling, hkind]
        cases t.text? tape.source <;> rfl)
    | string =>
      exact follows_literal .string .string (fun _ => rfl) (by
        rw [Token.spelling, hkind]
        cases t.contents? tape.source <;> rfl)
    | mark m =>
      rw [Parser.operand, Token.lexeme, Token.spelling_eq_mark_iff.2 hkind]
      cases m with
      | opening =>
        refine (follows_expr depth 0 (i + 1) (by omega)).bind fun inner j _ _ _ => ?_
        refine .groupEnd fun stop _ => ?_
        exact .give fun span _ => .pure
      | _ => exact .error
    | eof => exact absurd hkind hnot
  · refine .advance_end heq ?_
    rw [heq, tokenAt_length, rest_length, operand, Parser.operand]
    exact .tick .error

theorem follows_arguments (depth i : Nat) (h : 3 * (tape.rest i).length + 3 < depth) :
    tape.Follows i (tape.closed (tape.arguments depth))
      (Parser.arguments tape.reading.finish (tape.rest i)) := by
  obtain ⟨depth, rfl⟩ := Nat.exists_eq_add_one_of_ne_zero (Nat.ne_zero_of_lt h)
  refine .of_le fun hi => ?_
  rw [arguments, closed, bind_assoc, Parser.arguments]
  refine .isNext ?_
  by_cases hk : (tape.tokenAt i).kind = .mark .closing
  · obtain ⟨hlt, hshort, htake⟩ := take?_mark hi hk
    rw [decide_eq_true hk, if_pos rfl, pure_bind, htake]
    exact .consume hlt hk .pure
  · rw [decide_eq_false hk, if_neg Bool.false_ne_true,
      take?_mark_other hi hk]
    exact follows_argumentsFrom depth i (by omega)

theorem follows_argumentsFrom (depth i : Nat) (h : 3 * (tape.rest i).length + 2 < depth) :
    tape.Follows i (tape.closed (tape.argumentsFrom depth))
      (Parser.argumentsFrom tape.reading.finish (tape.rest i)) := by
  obtain ⟨depth, rfl⟩ := Nat.exists_eq_add_one_of_ne_zero (Nat.ne_zero_of_lt h)
  rw [argumentsFrom, closed, bind_assoc, Parser.argumentsFrom]
  refine .tick ?_
  rw [bind_assoc]
  refine (follows_expr depth 0 i (by omega)).bind fun arg j hshort _ _ => ?_
  refine .of_le fun hj => ?_
  rw [bind_assoc]
  refine .peek ?_
  dsimp only
  rw [Parser.argumentEnd]
  by_cases hcomma : (tape.tokenAt j).kind = .mark .comma
  · obtain ⟨hlt, hshort', htake⟩ := take?_mark hj hcomma
    rw [if_pos hcomma, htake, bind_assoc]
    refine .advance hlt ?_
    simp only [bind_assoc, pure_bind]
    rw [closed_bind (f := fun args close => pure (arg :: args, close))]
    exact (follows_argumentsFrom depth (j + 1) (by omega)).bind fun x k _ _ _ => .pure
  · rw [if_neg hcomma, take?_mark_other hj hcomma]
    by_cases hclosing : (tape.tokenAt j).kind = .mark .closing
    · obtain ⟨hlt, hshort', htake⟩ := take?_mark hj hclosing
      rw [if_pos hclosing, htake, pure_bind]
      exact .consume hlt hclosing .pure
    · rw [if_neg hclosing, take?_mark_other hj hclosing]
      dsimp only
      rw [failNext_rest hj]
      exact .error

end

end Tape

end LetLang
