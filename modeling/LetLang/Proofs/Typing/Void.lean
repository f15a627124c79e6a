import LetLang.Proofs.Compiler.Results
import LetLang.Proofs.Tree.Parts
import LetLang.Proofs.Typing.Blocks

/-!
`VOID` is the type of no value. A call that is a statement may have it, and nothing else: each place
where an expression is used asks for some other type, if no function takes a `VOID` and no name
stands for one. Declarations bind no such name, so no scope ever gets one.
-/

namespace LetLang

open Rules

/-! What is assumed, and what follows. -/

/-- No function takes a `VOID`. -/
def Catalog.NoVoidParam (catalog : Catalog) : Prop :=
  ∀ name arity s, catalog.function? name arity = some s → .void ∉ s.params

/-- No name stands for a `VOID` in any block. -/
def Scope.NoVoid (scope : Scope) : Prop :=
  ∀ table ∈ scope.current :: scope.outer, ∀ x, table.get? x ≠ some .void

/-- No expression of a statement has type `VOID`, unless it is a call and all of the statement. -/
structure Stmt.VoidFree (s : Stmt .typed) : Prop where
  exprs : ∀ e ∈ s.exprs, e.ty = .void → e.isCall ∧ ∃ span, s = .expr e span
  operands : ∀ e, Below Expr.operands s.exprs e → ∀ e' ∈ e.operands, e'.ty ≠ .void
  declared : ∀ x t initial span, s = .declaration x t initial span → t ≠ .void

theorem Catalog.noVoidParam_bare : bare.NoVoidParam := by
  intro name arity s h
  cases h

theorem Catalog.NoVoidParam.define {catalog : Catalog} (h : catalog.NoVoidParam) (name : String)
    {s : Signature} (hs : .void ∉ s.params) : (catalog.define name s).NoVoidParam := by
  intro name' arity s' h'
  rw [function?_define] at h'
  split at h'
  · cases h'
    exact hs
  · exact h name' arity s' h'

theorem Catalog.noVoidParam_standard : standard.NoVoidParam :=
  noVoidParam_bare
    |>.define "print" (by decide)
    |>.define "abs" (by decide)
    |>.define "sqrt" (by decide)
    |>.define "min" (by decide)
    |>.define "max" (by decide)

theorem Scope.NoVoid.define {scope : Scope} (h : scope.NoVoid) (x : String) {t : Ty}
    (ht : t ≠ .void) : (scope.define x t).NoVoid := by
  intro table htable y
  rcases List.mem_cons.1 htable with rfl | htable
  · rw [Scope.define, Table.get?_insert]
    split
    · simpa using ht
    · exact h scope.current (List.mem_cons_self ..) y
  · exact h table (List.mem_cons_of_mem _ htable) y

theorem Scope.NoVoid.lookup?_ne {scope : Scope} (h : scope.NoVoid) (x : String) :
    scope.lookup? x ≠ some .void := by
  intro hlookup
  obtain ⟨table, htable, hx⟩ := List.exists_of_findSome?_eq_some hlookup
  exact h table htable x hx

/-! The uses of an expression. -/

theorem Rules.Assignable.ne_void {a t : Ty} (h : Assignable a t) (ht : t ≠ .void) : a ≠ .void := by
  cases h with
  | same => exact ht
  | widened => simp
  | any ha => exact ha

theorem Rules.Numeric.ne_void {t : Ty} (h : Numeric t) : t ≠ .void := by
  cases h <;> simp

theorem Rules.OperatorTyped.ne_void {op : Operator} {a b t : Ty} (h : OperatorTyped op a b t) :
    a ≠ .void ∧ b ≠ .void := by
  cases h with
  | equality _ ht => exact ⟨ht, ht⟩
  | integer => simp
  | decimal _ ha hb => exact ⟨ha.ne_void, hb.ne_void⟩

/-- Nothing in the expression has type `VOID`. -/
def Expr.Solid (e : Expr .typed) : Prop := ∀ a, Below operands [e] a → a.ty ≠ .void

theorem Expr.Solid.ty_ne {e : Expr .typed} (h : e.Solid) : e.ty ≠ .void :=
  h e (.root (List.mem_singleton_self e))

theorem Expr.Solid.of_operands {e : Expr .typed} (hty : e.ty ≠ .void)
    (h : ∀ a ∈ e.operands, a.Solid) : e.Solid := by
  intro a ha
  exact ha.forall_singleton (P := fun a => a.ty ≠ .void) hty h

theorem Stmt.VoidFree.of_solid {s : Stmt .typed} (h : ∀ e ∈ s.exprs, e.Solid)
    (hdeclared : ∀ x t initial span, s = .declaration x t initial span → t ≠ .void) :
    s.VoidFree where
  exprs e he hty := absurd hty (h e he).ty_ne
  operands e he e' he' := by
    obtain ⟨r, hr, hbelow⟩ := he.exists_root
    exact h r hr e' (.part hbelow he')
  declared := hdeclared

/-- A statement that is a call may have no value. -/
theorem Stmt.VoidFree.of_call {e : Expr .typed} {span : Span} (hcall : e.isCall)
    (h : ∀ a ∈ e.operands, a.Solid) : (Stmt.expr e span).VoidFree where
  exprs a ha _ := by
    obtain rfl := List.mem_singleton.1 ha
    exact ⟨hcall, span, rfl⟩
  operands a ha := by
    refine ha.forall_singleton (P := fun a => ∀ a' ∈ a.operands, a'.ty ≠ .void) ?_ ?_
    · intro a' ha'
      exact (h a' ha').ty_ne
    · intro r hr a₁ ha₁ a' ha'
      exact h r hr a' (.part ha₁ ha')
  declared := nofun

section Typed

variable {catalog : Catalog} {env : Env}

mutual

/-- An expression that has a value is made of expressions that have values. -/
theorem Rules.ExprTyped.solid (hcatalog : catalog.NoVoidParam) {e : Expr .parsed}
    {e' : Expr .typed} : ExprTyped catalog env e e' → e'.ty ≠ .void → e'.Solid
  | .literal _, hty => .of_operands hty nofun
  | .group h, hty => by
    apply Expr.Solid.of_operands hty
    intro a ha
    obtain rfl := List.mem_singleton.1 ha
    exact h.solid hcatalog hty
  | .binary hl hr hop, hty => by
    obtain ⟨hlty, hrty⟩ := hop.ne_void
    apply Expr.Solid.of_operands hty
    intro a ha
    rcases List.mem_cons.1 ha with rfl | ha
    · exact hl.solid hcatalog hlty
    · obtain rfl := List.mem_singleton.1 ha
      exact hr.solid hcatalog hrty
  | .var _, hty => .of_operands hty nofun
  | .call hfun hargs, hty => .of_operands hty (hargs.solid hcatalog (hcatalog _ _ _ hfun))

theorem Rules.ArgumentsTyped.solid (hcatalog : catalog.NoVoidParam) {es : List (Expr .parsed)}
    {ts : List Ty} {es' : List (Expr .typed)} :
    ArgumentsTyped catalog env es ts es' → .void ∉ ts → ∀ e ∈ es', e.Solid
  | .nil, _ => nofun
  | .cons h hassign hes, hts => by
    rw [List.mem_cons, not_or] at hts
    intro a ha
    rcases List.mem_cons.1 ha with rfl | ha
    · exact h.solid hcatalog (hassign.ne_void (Ne.symm hts.1))
    · exact hes.solid hcatalog hts.2 a ha

end

theorem Rules.ExprTyped.isCall_eq {e : Expr .parsed} {e' : Expr .typed}
    (h : ExprTyped catalog env e e') : e'.isCall = e.isCall := by
  cases h <;> rfl

/-- What a call is made of has values, whether the call has one or not. -/
theorem Rules.ExprTyped.solid_operands (hcatalog : catalog.NoVoidParam) {e : Expr .parsed}
    {e' : Expr .typed} (h : ExprTyped catalog env e e') (hcall : e.isCall) :
    ∀ a ∈ e'.operands, a.Solid := by
  cases h with
  | call hfun hargs => exact hargs.solid hcatalog (hcatalog _ _ _ hfun)
  | _ => cases hcall

end Typed

/-! Statements. -/

/-- No visible name stands for a `VOID`. -/
def Env.NoVoid (env : Env) : Prop := ∀ x, ¬ env.Sees x .void

theorem Env.noVoid_ofScope {scope : Scope} (h : scope.NoVoid) : (Env.ofScope scope).NoVoid :=
  fun x hx => h.lookup?_ne x (sees_ofScope_iff.1 hx)

theorem Env.NoVoid.nested {env : Env} (h : env.NoVoid) : env.nested.NoVoid :=
  fun x hx => h x (sees_nested_iff.1 hx)

theorem Env.NoVoid.bind {env : Env} (h : env.NoVoid) (x : String) {t : Ty} (ht : t ≠ .void) :
    (env.bind x t).NoVoid := by
  intro y hy
  rw [sees_bind_iff] at hy
  split at hy
  · exact ht hy
  · exact h y hy

section Typed

variable {catalog : Catalog}

theorem Rules.InitialTyped.solid (hcatalog : catalog.NoVoidParam) {env : Env} {t : Ty}
    {initial : Option (Expr .parsed)} {initial' : Option (Expr .typed)}
    (h : InitialTyped catalog env t initial initial') (ht : t ≠ .void) :
    ∀ e ∈ initial'.toList, e.Solid := by
  cases h with
  | none => nofun
  | some h hassign =>
    intro a ha
    obtain rfl := List.mem_singleton.1 ha
    exact h.solid hcatalog (hassign.ne_void ht)

mutual

theorem Rules.StmtTyped.voidFree (hcatalog : catalog.NoVoidParam) {env env' : Env}
    {s : Stmt .parsed} {s' : Stmt .typed} : StmtTyped catalog env s s' env' → env.NoVoid →
    (∀ a, Below Stmt.inner [s'] a → a.VoidFree) ∧ env'.NoVoid
  | .expr hcall h, henv => by
    refine ⟨fun a ha => ?_, henv⟩
    obtain rfl := ha.eq_of_leaf rfl
    exact .of_call (h.isCall_eq.trans hcall) (h.solid_operands hcatalog hcall)
  | .declaration _ _ ht h _, henv => by
    refine ⟨fun a ha => ?_, henv.bind _ ht⟩
    obtain rfl := ha.eq_of_leaf rfl
    refine .of_solid (h.solid hcatalog ht) ?_
    intro x t' initial span heq
    cases heq
    exact ht
  | .assignment ht h hassign, henv => by
    refine ⟨fun a ha => ?_, henv⟩
    obtain rfl := ha.eq_of_leaf rfl
    have hsolid := h.solid hcatalog (hassign.ne_void fun hvoid => henv _ (hvoid ▸ ht))
    exact .of_solid (List.forall_mem_singleton.2 hsolid) nofun
  | .branch hc hty _ hyes hno, henv => by
    refine ⟨fun a ha => ha.forall_singleton ?_ ?_, henv⟩
    · exact .of_solid (List.forall_mem_singleton.2 (hc.solid hcatalog (by simp [hty]))) nofun
    · intro s hs
      rcases List.mem_append.1 hs with hs | hs
      · exact hyes.voidFree hcatalog henv.nested s hs
      · exact hno.voidFree hcatalog henv.nested s hs
  | .loop hc hty hbody, henv => by
    refine ⟨fun a ha => ha.forall_singleton ?_ ?_, henv⟩
    · exact .of_solid (List.forall_mem_singleton.2 (hc.solid hcatalog (by simp [hty]))) nofun
    · intro s hs
      exact hbody.voidFree hcatalog henv.nested s hs

theorem Rules.BlockTyped.voidFree (hcatalog : catalog.NoVoidParam) {env env' : Env}
    {ss : Block .parsed} {ss' : Block .typed} : BlockTyped catalog env ss ss' env' → env.NoVoid →
    ∀ s ∈ ss', ∀ a, Below Stmt.inner [s] a → a.VoidFree
  | .nil, _ => nofun
  | .cons h hss, henv => by
    obtain ⟨hs, hmid⟩ := h.voidFree hcatalog henv
    intro s hmem
    rcases List.mem_cons.1 hmem with rfl | hmem
    · exact hs
    · exact hss.voidFree hcatalog hmid s hmem

end

end Typed

namespace Typing

/-- Every program, with functions that take no `VOID` and in a scope without one: in the typed tree
only calls that are statements have type `VOID`, and however typing ends no name stands for one. -/
theorem voidFree_of_program (catalog : Catalog) (scope : Scope) (b : Block .parsed)
    (hcatalog : catalog.NoVoidParam) (hscope : scope.NoVoid) :
    (∀ b', (program catalog scope b).1 = .ok b' → ∀ s, Below Stmt.inner b' s → s.VoidFree) ∧
      (program catalog scope b).2.NoVoid := by
  refine ⟨?_, ?_⟩
  · intro b' h s hs
    have htyped := (block_gives_iff scope b).1 ⟨block_of_program h, rfl⟩
    obtain ⟨r, hr, hbelow⟩ := hs.exists_root
    exact htyped.voidFree hcatalog (Env.noVoid_ofScope hscope) r hr s hbelow
  · exact scope_of_program (fun s x t hs ht => hs.define x ht) hscope b

theorem voidFree_of_nested_print :
    Catalog.standard.NoVoidParam ∧ Scope.root.NoVoid ∧
    ∃ b b', parseProgram "WHILE TRUE DO LET x : ANY = (1); print(x); END" = .ok b ∧
      (program .standard .root b).1 = .ok b' ∧ (∀ s, Below Stmt.inner b' s → s.VoidFree) ∧
      (program .standard .root b).2.NoVoid := by
  have hroot : Scope.root.NoVoid := by
    intro table htable x
    obtain rfl := List.mem_singleton.1 htable
    simp [Scope.root]
  have htyped : (Compiler.typedIn .standard .root
      "WHILE TRUE DO LET x : ANY = (1); print(x); END").1.isOk := by decide +kernel
  obtain ⟨b, b', hb, hb'⟩ := Compiler.exists_typed_of_isOk htyped
  obtain ⟨htree, hscope⟩ := voidFree_of_program .standard .root b Catalog.noVoidParam_standard hroot
  exact ⟨Catalog.noVoidParam_standard, hroot, b, b', hb, hb', htree b' hb', hscope⟩

end Typing

end LetLang
