import LetLang.Proofs.Tree.Cursor.Walk

/-!
The depth of a walk is only a bound. A walk that has an outcome keeps it, cursor and all, when it may
go deeper.
-/

namespace LetLang.Tape

variable {α β : Type}

/-- Where the first walk has an outcome, the second has the same. -/
def Deepens (w w' : Walk α) : Prop := ∀ c x, w.run.run c = some x → w'.run.run c = some x

namespace Deepens

theorem refl {w : Walk α} : Deepens w w := fun _ _ h => h

theorem trans {w₁ w₂ w₃ : Walk α} (h : Deepens w₁ w₂) (h' : Deepens w₂ w₃) : Deepens w₁ w₃ :=
  fun c x hx => h' c x (h c x hx)

theorem tooDeep {w : Walk α} : Deepens tooDeep w := by
  rintro c x ⟨⟩

theorem bind {w w' : Walk α} {f f' : α → Walk β} (h : Deepens w w')
    (hf : ∀ a, Deepens (f a) (f' a)) : Deepens (w >>= f) (w' >>= f') := by
  intro c x hx
  rw [Walk.run_bind] at hx ⊢
  cases hw : w.run.run c with
  | none =>
    rw [hw] at hx
    cases hx
  | some y =>
    rw [hw] at hx
    rw [h c y hw]
    obtain ⟨_ | a, c'⟩ := y
    · exact hx
    · exact hf a c' x hx

/-- What is done first is the same. -/
theorem next {w : Walk α} {f f' : α → Walk β} (hf : ∀ a, Deepens (f a) (f' a)) :
    Deepens (w >>= f) (w >>= f') := bind refl hf

theorem ite {p : Prop} [Decidable p] {w₁ w₂ w₁' w₂' : Walk α} (h₁ : Deepens w₁ w₁')
    (h₂ : Deepens w₂ w₂') : Deepens (if p then w₁ else w₂) (if p then w₁' else w₂') := by
  split
  · exact h₁
  · exact h₂

/-- One level more at a time. -/
theorem of_le {w : Nat → Walk α} (h : ∀ depth, Deepens (w depth) (w (depth + 1))) {m n : Nat}
    (hmn : m ≤ n) : Deepens (w m) (w n) := by
  induction hmn with
  | refl => exact refl
  | step _ ih => exact ih.trans (h _)

end Deepens

variable (tape : Tape)

mutual

theorem deepens_expr (depth power : Nat) :
    Deepens (tape.expr depth power) (tape.expr (depth + 1) power) := by
  cases depth with
  | zero => exact .tooDeep
  | succ depth =>
    rw [expr, expr]
    refine .next fun _ => .next fun t => ?_
    exact .bind (deepens_operand depth t) fun lhs => deepens_operators depth power lhs

theorem deepens_operators (depth power : Nat) (lhs : Expr .parsed) :
    Deepens (tape.operators depth power lhs) (tape.operators (depth + 1) power lhs) := by
  cases depth with
  | zero => exact .tooDeep
  | succ depth =>
    rw [operators, operators]
    refine .next fun _ => .next fun t => ?_
    cases operator? t.kind with
    | none => exact .refl
    | some op =>
      refine .ite .refl (.next fun _ => ?_)
      refine .bind (deepens_expr depth op.rightPower) fun rhs => .next fun span => ?_
      exact deepens_operators depth power _

theorem deepens_operand (depth : Nat) (t : Token) :
    Deepens (tape.operand depth t) (tape.operand (depth + 1) t) := by
  cases depth with
  | zero => exact .tooDeep
  | succ depth =>
    rw [operand, operand]
    refine .next fun _ => ?_
    cases t.kind with
    | identifier =>
      refine .next fun k? => ?_
      cases k? with
      | none =>
        refine .next fun name => .next fun called => .ite ?_ .refl
        exact .bind (deepens_arguments depth) fun _ => .refl
      | some k => cases k <;> exact .refl
    | mark m =>
      cases m with
      | opening => exact .bind (deepens_expr depth 0) fun _ => .refl
      | _ => exact .refl
    | _ => exact .refl

theorem deepens_arguments (depth : Nat) :
    Deepens (tape.arguments depth) (tape.arguments (depth + 1)) := by
  cases depth with
  | zero => exact .tooDeep
  | succ depth =>
    rw [arguments, arguments]
    exact .next fun _ => .ite .refl (deepens_argumentsFrom depth)

theorem deepens_argumentsFrom (depth : Nat) :
    Deepens (tape.argumentsFrom depth) (tape.argumentsFrom (depth + 1)) := by
  cases depth with
  | zero => exact .tooDeep
  | succ depth =>
    rw [argumentsFrom, argumentsFrom]
    refine .next fun _ => .bind (deepens_expr depth 0) fun arg => .next fun t => .ite ?_ .refl
    exact .next fun _ => .bind (deepens_argumentsFrom depth) fun _ => .refl

end

theorem deepens_initializer (depth : Nat) :
    Deepens (tape.initializer depth) (tape.initializer (depth + 1)) :=
  .next fun _ => .ite (.bind (tape.deepens_expr depth 0) fun _ => .refl) .refl

theorem deepens_declaration (depth : Nat) :
    Deepens (tape.declaration depth) (tape.declaration (depth + 1)) := by
  refine .next fun _ => .next fun _ => .next fun _ => .next fun _ => ?_
  exact .bind (tape.deepens_initializer depth) fun _ => .refl

theorem deepens_assignment (depth : Nat) :
    Deepens (tape.assignment depth) (tape.assignment (depth + 1)) :=
  .next fun _ => .next fun _ => .bind (tape.deepens_expr depth 0) fun _ => .refl

theorem deepens_exprStmt (depth : Nat) :
    Deepens (tape.exprStmt depth) (tape.exprStmt (depth + 1)) :=
  .bind (tape.deepens_expr depth 0) fun _ => .refl

mutual

theorem deepens_stmt (depth : Nat) : Deepens (tape.stmt depth) (tape.stmt (depth + 1)) := by
  cases depth with
  | zero => exact .tooDeep
  | succ depth =>
    rw [stmt, stmt]
    refine .next fun _ => .next fun t => .next fun k? => ?_
    have hother : Deepens
        (tape.startsAssignment t >>= fun assigns =>
          if assigns then tape.assignment depth else tape.exprStmt depth)
        (tape.startsAssignment t >>= fun assigns =>
          if assigns then tape.assignment (depth + 1) else tape.exprStmt (depth + 1)) :=
      .next fun _ => .ite (tape.deepens_assignment depth) (tape.deepens_exprStmt depth)
    cases k? with
    | none => exact hother
    | some k =>
      cases k with
      | LET => exact tape.deepens_declaration depth
      | IF => exact deepens_branch depth
      | WHILE => exact deepens_loop depth
      | _ => exact hother

theorem deepens_branch (depth : Nat) : Deepens (tape.branch depth) (tape.branch (depth + 1)) := by
  cases depth with
  | zero => exact .tooDeep
  | succ depth =>
    rw [branch, branch]
    refine .next fun _ => .bind (tape.deepens_expr depth 0) fun _ => .next fun _ => ?_
    refine .bind (deepens_block depth _) fun _ => ?_
    exact .bind (deepens_otherwise depth) fun _ => .refl

theorem deepens_otherwise (depth : Nat) :
    Deepens (tape.otherwise depth) (tape.otherwise (depth + 1)) := by
  cases depth with
  | zero => exact .tooDeep
  | succ depth =>
    rw [otherwise, otherwise]
    exact .next fun _ => .ite (deepens_block depth _) .refl

theorem deepens_loop (depth : Nat) : Deepens (tape.loop depth) (tape.loop (depth + 1)) := by
  cases depth with
  | zero => exact .tooDeep
  | succ depth =>
    rw [loop, loop]
    refine .next fun _ => .bind (tape.deepens_expr depth 0) fun _ => .next fun _ => ?_
    exact .bind (deepens_block depth _) fun _ => .refl

theorem deepens_block (depth : Nat) (stops : List Keyword) :
    Deepens (tape.block depth stops) (tape.block (depth + 1) stops) := by
  cases depth with
  | zero => exact .tooDeep
  | succ depth =>
    rw [block, block]
    refine .next fun _ => .next fun _ => .ite .refl ?_
    refine .bind (deepens_stmt depth) fun _ => ?_
    exact .bind (deepens_block depth stops) fun _ => .refl

end

theorem deepens_statements (depth : Nat) :
    Deepens (tape.statements depth) (tape.statements (depth + 1)) := by
  induction depth with
  | zero => exact .tooDeep
  | succ depth ih =>
    rw [statements, statements]
    refine .next fun _ => .next fun _ => .ite .refl ?_
    exact .bind (tape.deepens_stmt depth) fun _ => .bind ih fun _ => .refl

theorem deepens_program (depth : Nat) :
    Deepens (tape.program depth) (tape.program (depth + 1)) :=
  .bind (tape.deepens_statements depth) fun _ => .refl

end LetLang.Tape
