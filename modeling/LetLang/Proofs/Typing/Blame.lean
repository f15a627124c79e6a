import LetLang.Proofs.Tree.Nodes
import LetLang.Proofs.Typing.Judgements

/-!
What type errors are about. An error that is found in a tree has the span of a node of that tree,
and an error in a block belongs to the first statement that has no type in the scope it is reached
with.
-/

namespace LetLang

namespace Typing

variable {catalog : Catalog} {scope : Scope} {err : Located TypeError}

/-- The error is about something within these nodes. -/
def Blames (err : Located TypeError) (roots : List Node) : Prop :=
  ∃ n : Node, n.Within roots ∧ n.span = err.span

theorem Blames.self {n : Node} (h : n.span = err.span) : Blames err [n] :=
  ⟨n, .root (List.mem_singleton.2 rfl), h⟩

theorem Blames.part {n m : Node} (h : Blames err [m]) (hm : m ∈ n.parts) : Blames err [n] :=
  let ⟨k, hk, hspan⟩ := h
  ⟨k, hk.of_part hm, hspan⟩

/-- Typing keeps the place of an expression. -/
theorem span_of_expr {e : Expr .parsed} {e' : Expr .typed}
    (h : expr catalog scope e = .ok e') : e'.span = e.span := by
  cases e with
  | literal raw span _ =>
    simp only [expr] at h
    split at h <;> cases h
    rfl
  | group inner span _ =>
    simp only [expr] at h
    obtain ⟨_, -, h⟩ := Except.bind_eq_ok_iff.1 h
    cases h
    rfl
  | binary op lhs rhs span _ =>
    simp only [expr] at h
    obtain ⟨_, -, h⟩ := Except.bind_eq_ok_iff.1 h
    obtain ⟨_, -, h⟩ := Except.bind_eq_ok_iff.1 h
    split at h <;> cases h
    rfl
  | var name span _ =>
    simp only [expr] at h
    split at h <;> cases h
    rfl
  | call name args _ span _ =>
    simp only [expr] at h
    split at h
    · cases h
    · obtain ⟨_, -, h⟩ := Except.bind_eq_ok_iff.1 h
      cases h
      rfl

mutual

theorem blames_of_expr {e : Expr .parsed} (h : expr catalog scope e = .error err) :
    Blames err [.expr e] := by
  match e with
  | .literal raw span _ =>
    simp only [expr] at h
    split at h <;> cases h
    exact .self rfl
  | .group inner span _ =>
    simp only [expr] at h
    rcases Except.bind_eq_error_iff.1 h with h | ⟨_, -, h⟩
    · exact (blames_of_expr h).part (List.mem_singleton.2 rfl)
    · cases h
  | .binary op lhs rhs span _ =>
    simp only [expr] at h
    rcases Except.bind_eq_error_iff.1 h with h | ⟨_, -, h⟩
    · exact (blames_of_expr h).part (List.mem_cons_self ..)
    rcases Except.bind_eq_error_iff.1 h with h | ⟨_, -, h⟩
    · exact (blames_of_expr h).part (List.mem_cons_of_mem _ (List.mem_singleton.2 rfl))
    split at h <;> cases h
    exact .self rfl
  | .var name span _ =>
    simp only [expr] at h
    split at h <;> cases h
    exact (Blames.self (n := .name name) rfl).part (List.mem_singleton.2 rfl)
  | .call name args _ span _ =>
    simp only [expr] at h
    split at h
    · cases h
      exact .self rfl
    · rcases Except.bind_eq_error_iff.1 h with h | ⟨_, -, h⟩
      · obtain ⟨arg, harg, hblames⟩ := blames_of_arguments h
        exact hblames.part (List.mem_cons_of_mem _ (List.mem_map_of_mem harg))
      · cases h

theorem blames_of_arguments {args : List (Expr .parsed)} {params : List Ty}
    (h : arguments catalog scope args params = .error err) :
    ∃ arg ∈ args, Blames err [.expr arg] := by
  match args, params with
  | [], _ => cases h
  | _ :: _, [] => cases h
  | arg :: args, param :: params =>
    simp only [arguments] at h
    rcases Except.bind_eq_error_iff.1 h with h | ⟨arg', harg, h⟩
    · exact ⟨arg, List.mem_cons_self .., blames_of_expr h⟩
    split at h
    · rcases Except.bind_eq_error_iff.1 h with h | ⟨_, -, h⟩
      · obtain ⟨a, ha, hblames⟩ := blames_of_arguments h
        exact ⟨a, List.mem_cons_of_mem _ ha, hblames⟩
      · cases h
    · cases h
      exact ⟨arg, List.mem_cons_self .., .self (span_of_expr harg).symm⟩

end

theorem blames_of_value {target : Ty} {e : Expr .parsed}
    (h : value catalog scope target e = .error err) : Blames err [.expr e] := by
  rcases Except.bind_eq_error_iff.1 h with h | ⟨e', he, h⟩
  · exact blames_of_expr h
  · split at h <;> cases h
    exact .self (span_of_expr he).symm

theorem blames_of_condition {e : Expr .parsed}
    (h : condition catalog scope e = .error err) : Blames err [.expr e] := by
  rcases Except.bind_eq_error_iff.1 h with h | ⟨e', he, h⟩
  · exact blames_of_expr h
  · split at h <;> cases h
    exact .self (span_of_expr he).symm

theorem blames_of_declaration {name ty : Ident} {initial : Option (Expr .parsed)} {span : Span}
    (h : (declaration catalog scope name ty initial span).1 = .error err) :
    Blames err [.stmt (.declaration name ty initial span)] := by
  unfold declaration at h
  dsimp only at h
  split at h
  · next e he =>
    cases h
    rcases Except.bind_eq_error_iff.1 he with he | ⟨t, -, he⟩
    · unfold declaredType at he
      split at he
      · cases he
        exact (Blames.self (n := .name name) rfl).part (List.mem_cons_self ..)
      · split at he <;> cases he <;>
          exact (Blames.self (n := .name ty) rfl).part
            (List.mem_cons_of_mem _ (List.mem_cons_self ..))
    rcases Except.bind_eq_error_iff.1 he with he | ⟨_, -, he⟩
    · cases initial with
      | none => cases he
      | some e =>
        refine (blames_of_value (Except.map_eq_error_iff.1 he)).part ?_
        simp [Node.parts]
    · cases he
  · dsimp only at h
    split at h <;> cases h
    exact (Blames.self (n := .name name) rfl).part (List.mem_cons_self ..)

/-- A block fails with its first statement, or after it. -/
theorem block_cons_eq_error_iff {s : Stmt .parsed} {ss : Block .parsed} :
    (block catalog scope (s :: ss)).1 = .error err ↔ (stmt catalog scope s).1 = .error err ∨
      ∃ s' scope', stmt catalog scope s = (.ok s', scope') ∧
        (block catalog scope' ss).1 = .error err := by
  rw [block]
  rcases stmt catalog scope s with ⟨e | s', scope'⟩
  · simp
  · rcases block catalog scope' ss with ⟨e | ss', scope''⟩ <;> grind

mutual

theorem blames_of_stmt {scope : Scope} {s : Stmt .parsed}
    (h : (stmt catalog scope s).1 = .error err) : Blames err [.stmt s] := by
  match s with
  | .expr e span =>
    simp only [stmt] at h
    split at h
    · exact (blames_of_expr (Except.map_eq_error_iff.1 h)).part (List.mem_singleton.2 rfl)
    · cases h
      exact (Blames.self (n := .expr e) rfl).part (List.mem_singleton.2 rfl)
  | .declaration name ty initial span =>
    simp only [stmt] at h
    exact blames_of_declaration h
  | .assignment target e span =>
    simp only [stmt] at h
    split at h
    · cases h
      exact (Blames.self (n := .name target) rfl).part (List.mem_cons_self ..)
    · exact (blames_of_value (Except.map_eq_error_iff.1 h)).part
        (List.mem_cons_of_mem _ (List.mem_singleton.2 rfl))
  | .branch test yes no span =>
    simp only [stmt] at h
    rcases Except.bind_eq_error_iff.1 h with h | ⟨_, -, h⟩
    · exact (blames_of_condition h).part (List.mem_cons_self ..)
    split at h
    · cases h
      exact .self rfl
    rcases Except.bind_eq_error_iff.1 h with h | ⟨_, -, h⟩
    · obtain ⟨s, hs, hblames⟩ := blames_of_block h
      exact hblames.part (by simp [Node.parts, hs])
    rcases Except.bind_eq_error_iff.1 h with h | ⟨_, -, h⟩
    · obtain ⟨s, hs, hblames⟩ := blames_of_block h
      exact hblames.part (by simp [Node.parts, hs])
    · cases h
  | .loop test body span =>
    simp only [stmt] at h
    rcases Except.bind_eq_error_iff.1 h with h | ⟨_, -, h⟩
    · exact (blames_of_condition h).part (List.mem_cons_self ..)
    rcases Except.bind_eq_error_iff.1 h with h | ⟨_, -, h⟩
    · obtain ⟨s, hs, hblames⟩ := blames_of_block h
      exact hblames.part (by simp [Node.parts, hs])
    · cases h

theorem blames_of_block {scope : Scope} {ss : Block .parsed}
    (h : (block catalog scope ss).1 = .error err) : ∃ s ∈ ss, Blames err [.stmt s] := by
  match ss with
  | [] =>
    simp only [block] at h
    cases h
  | s :: ss =>
    rcases block_cons_eq_error_iff.1 h with h | ⟨s', scope', -, h⟩
    · exact ⟨s, List.mem_cons_self .., blames_of_stmt h⟩
    · obtain ⟨t, ht, hblames⟩ := blames_of_block h
      exact ⟨t, List.mem_cons_of_mem _ ht, hblames⟩

end

/-- The statement that an error in a block belongs to. -/
theorem exists_stmt_of_block {ss : Block .parsed} (h : (block catalog scope ss).1 = .error err) :
    ∃ before s after typed scope', ss = before ++ s :: after ∧
      block catalog scope before = (.ok typed, scope') ∧
      (stmt catalog scope' s).1 = .error err := by
  induction ss generalizing scope with
  | nil =>
    simp only [block] at h
    cases h
  | cons s ss ih =>
    rcases block_cons_eq_error_iff.1 h with h | ⟨s', scope', hs, h⟩
    · exact ⟨[], s, ss, [], scope, rfl, by rw [block], h⟩
    · obtain ⟨before, t, after, typed, scope'', rfl, hbefore, ht⟩ := ih h
      have hblock : block catalog scope (s :: before) = (.ok (s' :: typed), scope'') := by
        simp only [block, hs, hbefore]
      exact ⟨s :: before, t, after, s' :: typed, scope'', rfl, hblock, ht⟩

end Typing

end LetLang
