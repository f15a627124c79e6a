import LetLang.Tree

/-!
Parts of trees: the operands of an expression, the expressions that a statement evaluates, and the
statements of its blocks, at any depth.
-/

namespace LetLang

/-- One of the roots, or a part of one at any depth. -/
inductive Below {α : Type} (parts : α → List α) (roots : List α) : α → Prop
  | root {a : α} : a ∈ roots → Below parts roots a
  | part {a a' : α} : Below parts roots a → a' ∈ parts a → Below parts roots a'

namespace Below

variable {α : Type} {parts : α → List α} {roots : List α} {a : α}

theorem exists_root (h : Below parts roots a) : ∃ r ∈ roots, Below parts [r] a := by
  induction h with
  | @root a ha => exact ⟨a, ha, .root (List.mem_singleton_self a)⟩
  | part _ hp ih =>
    obtain ⟨r, hr, ih⟩ := ih
    exact ⟨r, hr, .part ih hp⟩

theorem eq_or_parts {r : α} (h : Below parts [r] a) : a = r ∨ Below parts (parts r) a := by
  induction h with
  | root ha => exact .inl (List.mem_singleton.1 ha)
  | part _ hp ih =>
    rcases ih with rfl | ih
    · exact .inr (.root hp)
    · exact .inr (.part ih hp)

/-- What holds for a root, and for each part of it and all below that part. -/
theorem forall_singleton {P : α → Prop} {r : α} (hr : P r)
    (hparts : ∀ r' ∈ parts r, ∀ a, Below parts [r'] a → P a) (h : Below parts [r] a) : P a := by
  rcases h.eq_or_parts with rfl | hbelow
  · exact hr
  · obtain ⟨r', hr', ha⟩ := hbelow.exists_root
    exact hparts r' hr' a ha

/-- What is below some parts of other roots is below these. -/
theorem lift {roots' : List α} (h : Below parts roots a)
    (hroots : ∀ r ∈ roots, Below parts roots' r) : Below parts roots' a := by
  induction h with
  | root ha => exact hroots _ ha
  | part _ hp ih => exact ih.part hp

/-- A map that keeps the parts of everything keeps what is below. -/
theorem map_iff {β : Type} {f : α → β} {parts' : β → List β}
    (hf : ∀ a, parts' (f a) = (parts a).map f) {b : β} :
    Below parts' (roots.map f) b ↔ ∃ a, Below parts roots a ∧ f a = b := by
  constructor
  · intro h
    induction h with
    | root hb =>
      obtain ⟨a, ha, rfl⟩ := List.mem_map.1 hb
      exact ⟨a, .root ha, rfl⟩
    | part _ hp ih =>
      obtain ⟨a, ha, rfl⟩ := ih
      rw [hf] at hp
      obtain ⟨a', ha', rfl⟩ := List.mem_map.1 hp
      exact ⟨a', ha.part ha', rfl⟩
  · rintro ⟨a, h, rfl⟩
    induction h with
    | root ha => exact .root (List.mem_map_of_mem ha)
    | part _ hp ih => exact ih.part (hf _ ▸ List.mem_map_of_mem hp)

theorem of_head {as : List α} : ∀ r ∈ [a], Below parts (a :: as) r := by
  intro r hr
  obtain rfl := List.mem_singleton.1 hr
  exact .root List.mem_cons_self

theorem of_tail {as : List α} : ∀ r ∈ as, Below parts (a :: as) r :=
  fun _ hr => .root (List.mem_cons_of_mem _ hr)

theorem of_parts {as : List α} (has : ∀ r ∈ as, r ∈ parts a) : ∀ r ∈ as, Below parts [a] r :=
  fun r hr => .part (.root (List.mem_singleton_self a)) (has r hr)

theorem eq_of_leaf {r : α} (hr : parts r = []) (h : Below parts [r] a) : a = r := by
  refine h.forall_singleton (P := fun a => a = r) rfl fun r' hr' => ?_
  rw [hr] at hr'
  cases hr'

end Below

def Expr.operands {p : Phase} : Expr p → List (Expr p)
  | .literal _ _ _ | .var _ _ _ => []
  | .group inner _ _ => [inner]
  | .binary _ lhs rhs _ _ => [lhs, rhs]
  | .call _ args _ _ _ => args

/-- The expressions that a statement itself evaluates. -/
def Stmt.exprs {p : Phase} : Stmt p → List (Expr p)
  | .expr e _ | .assignment _ e _ | .branch e _ _ _ | .loop e _ _ => [e]
  | .declaration _ _ initial _ => initial.toList

def Stmt.inner {p : Phase} : Stmt p → Block p
  | .branch _ yes no _ => yes ++ no
  | .loop _ body _ => body
  | _ => []

/-- The name that a statement itself declares. -/
def Stmt.declared? {p : Phase} : Stmt p → Option String
  | .declaration x _ _ _ => some x.name
  | _ => none

/-- Some declaration in the block, at any depth, is of this name. -/
def DeclaredIn (b : Block .parsed) (x : String) : Prop :=
  ∃ name ty initial span, Below Stmt.inner b (.declaration name ty initial span) ∧ name.name = x

theorem DeclaredIn.lift {b b' : Block .parsed} {x : String} (h : DeclaredIn b x)
    (hb : ∀ s ∈ b, Below Stmt.inner b' s) : DeclaredIn b' x := by
  obtain ⟨name, ty, initial, span, hbelow, hname⟩ := h
  exact ⟨name, ty, initial, span, hbelow.lift hb, hname⟩

theorem not_declaredIn_nil {x : String} : ¬ DeclaredIn [] x := by
  rintro ⟨name, ty, initial, span, hbelow, -⟩
  obtain ⟨s, hs, -⟩ := hbelow.exists_root
  cases hs

/-- A name is declared by the first statement, inside of it or after it. -/
theorem declaredIn_cons_iff {s : Stmt .parsed} {ss : Block .parsed} {x : String} :
    DeclaredIn (s :: ss) x ↔
      (∃ name ty initial span, s = .declaration name ty initial span ∧ name.name = x) ∨
        DeclaredIn s.inner x ∨ DeclaredIn ss x := by
  constructor
  · rintro ⟨name, ty, initial, span, hbelow, rfl⟩
    obtain ⟨r, hr, hin⟩ := hbelow.exists_root
    rcases List.mem_cons.1 hr with rfl | hr
    · rcases hin.eq_or_parts with rfl | hinner
      · exact .inl ⟨name, ty, initial, span, rfl, rfl⟩
      · exact .inr (.inl ⟨name, ty, initial, span, hinner, rfl⟩)
    · refine .inr (.inr ⟨name, ty, initial, span, hin.lift fun r' hr' => ?_, rfl⟩)
      obtain rfl := List.mem_singleton.1 hr'
      exact .root hr
  · rintro (⟨name, ty, initial, span, rfl, rfl⟩ | h | h)
    · exact ⟨name, ty, initial, span, .root List.mem_cons_self, rfl⟩
    · exact h.lift fun r hr => .part (.root List.mem_cons_self) hr
    · exact h.lift .of_tail

theorem declaredIn_declaration (name ty : Ident) (initial : Option (Expr .parsed)) (span : Span) :
    DeclaredIn [.declaration name ty initial span] name.name :=
  ⟨name, ty, initial, span, .root (List.mem_singleton_self _), rfl⟩

end LetLang
