import LetLang.Proofs.Typing.Checking

/-!
What a block does, statement by statement. It goes on after a statement that has a type, in the
scope that the statement leaves, and stops at the first one that has none; so a block is typed piece
by piece. The only thing that ever happens to a scope is that a declaration binds its name.
-/

namespace LetLang.Typing

variable {catalog : Catalog} {scope : Scope}

theorem block_append (scope : Scope) (ss rest : Block .parsed) :
    block catalog scope (ss ++ rest) =
      match block catalog scope ss with
      | (.error e, mid) => (.error e, mid)
      | (.ok ss', mid) =>
        ((ss' ++ ·) <$> (block catalog mid rest).1, (block catalog mid rest).2) := by
  induction ss generalizing scope with
  | nil =>
    rw [List.nil_append, block]
    dsimp only
    rcases block catalog scope rest with ⟨e | rest', last⟩ <;> rfl
  | cons s ss ih =>
    rw [List.cons_append, block, block]
    rcases stmt catalog scope s with ⟨e | s', mid⟩
    · rfl
    dsimp only
    rw [ih]
    rcases block catalog mid ss with ⟨e | ss', after⟩
    · rfl
    dsimp only
    rcases block catalog after rest with ⟨e | rest', last⟩ <;> rfl

theorem program_of_ne_nil {b : Block .parsed} (hb : b ≠ []) :
    program catalog scope b = block catalog scope b := by
  rw [program, if_neg (by simpa using hb)]

/-- A statement leaves the scope as it is, or binds one name in its innermost block, to a type that
values have. -/
theorem scope_of_stmt (s : Stmt .parsed) :
    (stmt catalog scope s).2 = scope ∨
      ∃ x t, t ≠ .void ∧ (stmt catalog scope s).2 = scope.define x t := by
  cases s with
  | declaration x ty initial span =>
    simp only [stmt, declaration]
    split
    · exact .inl rfl
    · next t initial' h =>
      obtain ⟨⟨-, -, hvoid⟩, -⟩ := checked_eq_ok_iff.1 h
      exact .inr ⟨x.name, t, hvoid, rfl⟩
  | expr | assignment | branch | loop => exact .inl (by simp only [stmt])

/-- What declarations keep of a scope is kept by a block, also by one that fails on the way. -/
theorem scope_of_block {P : Scope → Prop} (hdefine : ∀ s x t, P s → t ≠ .void → P (s.define x t))
    {scope : Scope} (hscope : P scope) (ss : Block .parsed) : P (block catalog scope ss).2 := by
  induction ss generalizing scope with
  | nil =>
    rw [block]
    exact hscope
  | cons s ss ih =>
    have hmid : P (stmt catalog scope s).2 := by
      rcases @scope_of_stmt catalog scope s with h | ⟨x, t, ht, h⟩
      · rwa [h]
      · rw [h]
        exact hdefine scope x t hscope ht
    rw [block]
    generalize stmt catalog scope s = q at hmid
    obtain ⟨e | s', mid⟩ := q
    · exact hmid
    have hlast : P (block catalog mid ss).2 := ih hmid
    dsimp only
    generalize block catalog mid ss = q at hlast
    obtain ⟨e | ss', last⟩ := q <;> exact hlast

theorem scope_of_program {P : Scope → Prop}
    (hdefine : ∀ s x t, P s → t ≠ .void → P (s.define x t)) (hscope : P scope)
    (b : Block .parsed) : P (program catalog scope b).2 := by
  rw [program]
  split
  · exact hscope
  · exact scope_of_block hdefine hscope b

end LetLang.Typing
