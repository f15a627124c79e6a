import LetLang.Proofs.Catalog.History
import LetLang.Proofs.Java.Terms
import LetLang.Proofs.Typing.Void

/-!
Static types in Java. Whole numbers are ints there, and an operation on ints is one on ints: nothing
in a printed expression says that the checker has widened an `INTEGER`. For operators the two type
systems agree all the same, as both of them widen where one operand is a `DECIMAL`. The methods
`abs`, `min` and `max` are overloaded in Java, and with ints they give an int where the checker has
noted a `DECIMAL`. These calls are the only source of other types, and what they change is always a
`DECIMAL` that is an `int`.
-/

namespace LetLang

namespace Java

def Constant.type : Constant → String
  | .bool _ => "boolean"
  | .int _ => "int"
  | .double _ _ => "double"
  | .string _ => "String"

/-- Binary numeric promotion, of the two numeric types that are printed. -/
def promoted? (a b : String) : Option String :=
  if a = "int" ∧ b = "int" then some "int"
  else if a ∈ ["int", "double"] ∧ b ∈ ["int", "double"] then some "double"
  else none

def operatorType? (op : Operator) (a b : String) : Option String :=
  if op.isEquality then
    if (promoted? a b).isSome ∨ a = b ∧ a ≠ "void" then some "boolean" else none
  else promoted? a b

/-- The result of the overload that arguments of these types select. -/
def methodType? : String → List String → Option String
  | "System.out.println", [a] => if a = "void" then none else some "void"
  | "Math.sqrt", [a] => promoted? a "double"
  | "Math.abs", [a] => promoted? a a
  | "Math.min", [a, b] => promoted? a b
  | "Math.max", [a, b] => promoted? a b
  | _, _ => none

section

-- The types of the local variables, the innermost first.
variable (locals : List (String × String))

mutual

def Term.type? : Term → Option String
  | .literal c => some c.type
  | .name x => locals.lookup x
  | .group inner => inner.type?
  | .binary op lhs rhs => do operatorType? op (← lhs.type?) (← rhs.type?)
  | .call callee args => do methodType? callee (← types? args)

def types? : List Term → Option (List String)
  | [] => some []
  | t :: ts => do return (← t.type?) :: (← types? ts)

end

end

end Java

/-- A call of a method that has an overload for ints, where all arguments are widened. -/
def Expr.Narrows : Expr .typed → Prop
  | .call _ args host _ _ =>
    host ∈ ["Math.abs", "Math.min", "Math.max"] ∧ ∀ a ∈ args, a.ty = .integer
  | _ => False

theorem Rules.Assignable.numeric {t : Ty} (h : Assignable t .decimal) : Numeric t := by
  cases h with
  | same => exact .decimal
  | widened => exact .integer

namespace Java

open Rules

/-- Some part of these expressions is such a call. -/
def SomeNarrows (es : List (Expr .typed)) : Prop :=
  ∃ a, Below Expr.operands es a ∧ a.Narrows

/-- The expression has its own type in Java, or it is a `DECIMAL` that is an `int` there. -/
inductive TypedAs (e : Expr .typed) : String → Prop
  | same : ¬ e.Narrows → TypedAs e e.ty.defaultHost
  | narrowed : e.ty = .decimal → SomeNarrows [e] → TypedAs e "int"

theorem SomeNarrows.lift {es es' : List (Expr .typed)} (h : SomeNarrows es)
    (hes : ∀ e ∈ es, Below Expr.operands es' e) : SomeNarrows es' := by
  obtain ⟨a, ha, hnarrows⟩ := h
  exact ⟨a, ha.lift hes, hnarrows⟩

theorem SomeNarrows.of_operands {e : Expr .typed} (h : SomeNarrows e.operands) : SomeNarrows [e] :=
  h.lift fun _ ha => .part (.root (List.mem_singleton_self e)) ha

theorem someNarrows_self {e : Expr .typed} (h : e.Narrows) : SomeNarrows [e] :=
  ⟨e, .root (List.mem_singleton_self e), h⟩

/-! Promotion. -/

theorem TypedAs.of_numeric {e : Expr .typed} {a : String} (h : TypedAs e a) (he : Numeric e.ty) :
    a = "int" ∧ (e.ty = .integer ∨ SomeNarrows [e]) ∨ a = "double" ∧ e.ty = .decimal := by
  cases h with
  | narrowed _ hnarrows => exact .inl ⟨rfl, .inr hnarrows⟩
  | same =>
    generalize e.ty = t at he
    cases he with
    | integer => exact .inl ⟨rfl, .inl rfl⟩
    | decimal => exact .inr ⟨rfl, rfl⟩

/-- Java promotes to a `double`, except where both are whole numbers or one of them should not have
been an `int`. -/
theorem TypedAs.promoted {l r : Expr .typed} {a b : String} (hl : TypedAs l a) (hr : TypedAs r b)
    (hlty : Numeric l.ty) (hrty : Numeric r.ty) :
    promoted? a b = some "int" ∧ (l.ty = .integer ∧ r.ty = .integer ∨ SomeNarrows [l, r]) ∨
      promoted? a b = some "double" ∧ (l.ty = .decimal ∨ r.ty = .decimal) := by
  rcases hl.of_numeric hlty with ⟨rfl, hleft⟩ | ⟨rfl, hleft⟩
  · rcases hr.of_numeric hrty with ⟨rfl, hright⟩ | ⟨rfl, hright⟩
    · refine .inl ⟨rfl, ?_⟩
      rcases hleft with hleft | hleft
      · refine hright.imp (fun hright => ⟨hleft, hright⟩) fun hright => hright.lift fun e he => ?_
        exact .root (List.mem_cons_of_mem l he)
      · refine .inr (hleft.lift fun e he => ?_)
        exact .root (List.mem_singleton.1 he ▸ List.mem_cons_self)
    · exact .inr ⟨rfl, .inr hright⟩
  · refine .inr ⟨?_, .inl hleft⟩
    rcases hr.of_numeric hrty with ⟨rfl, -⟩ | ⟨rfl, -⟩ <;> rfl

/-- A `DECIMAL` that Java promotes from two of its operands. -/
theorem typedAs_of_promoted {e l r : Expr .typed} {a b : String} (he : e.ty = .decimal)
    (hmem : l ∈ e.operands ∧ r ∈ e.operands) (hl : TypedAs l a) (hr : TypedAs r b)
    (hlty : Numeric l.ty) (hrty : Numeric r.ty)
    (hwhole : e.Narrows ↔ l.ty = .integer ∧ r.ty = .integer) :
    ∃ t, promoted? a b = some t ∧ TypedAs e t := by
  rcases hl.promoted hr hlty hrty with ⟨hint, hboth | hsome⟩ | ⟨hdouble, hd⟩
  · exact ⟨"int", hint, .narrowed he (someNarrows_self (hwhole.2 hboth))⟩
  · refine ⟨"int", hint, .narrowed he ?_⟩
    apply SomeNarrows.of_operands
    apply hsome.lift
    intro o ho
    rcases List.mem_cons.1 ho with rfl | ho
    · exact .root hmem.1
    · obtain rfl := List.mem_singleton.1 ho
      exact .root hmem.2
  · refine ⟨"double", hdouble, ?_⟩
    have hsame : TypedAs e e.ty.defaultHost := by
      refine .same fun hnarrows => ?_
      obtain ⟨hli, hri⟩ := hwhole.1 hnarrows
      rw [hli, hri] at hd
      simp at hd
    rwa [he] at hsame

theorem TypedAs.ne_void {e : Expr .typed} {a : String} (h : TypedAs e a) (he : e.ty ≠ .void) :
    a ≠ "void" := by
  cases h with
  | same =>
    generalize e.ty = t at he
    cases t with
    | void => exact absurd rfl he
    | _ => decide
  | narrowed => decide

theorem TypedAs.eq_of_ne_decimal {e : Expr .typed} {a : String} (h : TypedAs e a)
    (he : e.ty ≠ .decimal) : a = e.ty.defaultHost := by
  cases h with
  | same => rfl
  | narrowed hd _ => exact absurd hd he

/-! Operators. -/

theorem typedAs_of_operator {op : Operator} {l r : Expr .typed} {t : Ty} {span : Span}
    {a b : String} (hl : TypedAs l a) (hr : TypedAs r b) (hop : OperatorTyped op l.ty r.ty t) :
    ∃ u, operatorType? op a b = some u ∧ TypedAs (.binary op l r span t) u := by
  unfold operatorType?
  generalize hlty : l.ty = lty at hop
  generalize hrty : r.ty = rty at hop
  cases hop with
  | equality hmem hvoid =>
    refine ⟨"boolean", ?_, .same nofun⟩
    rw [if_pos (Operator.isEquality_iff.2 hmem), if_pos]
    by_cases hd : lty = .decimal
    · -- Either of the two may be an `int`, but Java compares numbers of any two types.
      subst hd
      left
      rcases hl.promoted hr (hlty ▸ .decimal) (hrty ▸ .decimal) with ⟨h, -⟩ | ⟨h, -⟩ <;> simp [h]
    · right
      have ha := hl.eq_of_ne_decimal (hlty ▸ hd)
      have hb := hr.eq_of_ne_decimal (hrty ▸ hd)
      exact ⟨by rw [ha, hb, hlty, hrty], hl.ne_void (hlty ▸ hvoid)⟩
  | integer hmem =>
    rw [if_neg (Operator.not_isEquality_iff.2 hmem)]
    have ha := hl.eq_of_ne_decimal (by simp [hlty])
    have hb := hr.eq_of_ne_decimal (by simp [hrty])
    rw [ha, hb, hlty, hrty]
    exact ⟨"int", rfl, .same nofun⟩
  | decimal hmem hln hrn hd =>
    rw [if_neg (Operator.not_isEquality_iff.2 hmem)]
    subst hlty hrty
    refine typedAs_of_promoted rfl ⟨List.mem_cons_self, List.mem_cons_of_mem _ ?_⟩ hl hr hln hrn
      ⟨nofun, ?_⟩
    · exact List.mem_singleton_self r
    · intro hboth
      rw [hboth.1, hboth.2] at hd
      simp at hd

/-! Calls. -/

theorem signature_cases {name : String} {n : Nat} {s : Signature}
    (h : Catalog.standard.function? name n = some s) :
    s = ⟨[.any], .void, "System.out.println"⟩ ∨ s = ⟨[.decimal], .decimal, "Math.sqrt"⟩ ∨
      s = ⟨[.decimal], .decimal, "Math.abs"⟩ ∨
      ∃ host ∈ ["Math.min", "Math.max"], s = ⟨[.decimal, .decimal], .decimal, host⟩ := by
  have hmem := Catalog.mem_builtins_of_function? h
  simp only [Catalog.builtins, List.mem_cons, Catalog.Step.define.injEq, List.not_mem_nil,
    or_false] at hmem
  rcases hmem with ⟨-, rfl⟩ | ⟨-, rfl⟩ | ⟨-, rfl⟩ | ⟨-, rfl⟩ | ⟨-, rfl⟩ <;> simp

theorem methodType?_of_mem {host : String} (h : host ∈ ["Math.min", "Math.max"]) (a b : String) :
    methodType? host [a, b] = promoted? a b := by
  rcases List.mem_cons.1 h with rfl | h
  · rfl
  · obtain rfl := List.mem_singleton.1 h
    rfl

variable {env : Env}

theorem typedAs_of_argument {p : Ty} {es : List (Expr .parsed)} {es' : List (Expr .typed)}
    {ts : List String} (hes : ArgumentsTyped .standard env es [p] es')
    (hts : List.Forall₂ TypedAs es' ts) :
    ∃ e t, es' = [e] ∧ ts = [t] ∧ Assignable e.ty p ∧ TypedAs e t := by
  cases hes with
  | cons _ hassign hes =>
    cases hes
    cases hts with
    | cons ht hts =>
      cases hts
      exact ⟨_, _, rfl, rfl, hassign, ht⟩

theorem typedAs_of_arguments {p q : Ty} {es : List (Expr .parsed)} {es' : List (Expr .typed)}
    {ts : List String} (hes : ArgumentsTyped .standard env es [p, q] es')
    (hts : List.Forall₂ TypedAs es' ts) :
    ∃ l r a b, es' = [l, r] ∧ ts = [a, b] ∧ (Assignable l.ty p ∧ TypedAs l a) ∧
      Assignable r.ty q ∧ TypedAs r b := by
  cases hes with
  | cons _ hassign hes =>
    cases hts with
    | cons ht hts =>
      obtain ⟨r, b, rfl, rfl, hr⟩ := typedAs_of_argument hes hts
      exact ⟨_, r, _, b, rfl, rfl, ⟨hassign, ht⟩, hr⟩

theorem typedAs_of_call {name : String} {n : Nat} {s : Signature} {x : Ident} {span : Span}
    {es : List (Expr .parsed)} {es' : List (Expr .typed)} {ts : List String}
    (hs : Catalog.standard.function? name n = some s)
    (hes : ArgumentsTyped .standard env es s.params es') (hts : List.Forall₂ TypedAs es' ts) :
    ∃ t, methodType? s.host ts = some t ∧ TypedAs (.call x es' s.host span s.result) t := by
  rcases signature_cases hs with rfl | rfl | rfl | ⟨host, hhost, rfl⟩
  · obtain ⟨e, t, rfl, rfl, hassign, ht⟩ := typedAs_of_argument hes hts
    refine ⟨"void", if_neg (ht.ne_void (hassign.ne_void (by decide))), .same ?_⟩
    exact fun hnarrows => absurd hnarrows.1 (by decide)
  · obtain ⟨e, t, rfl, rfl, hassign, ht⟩ := typedAs_of_argument hes hts
    refine ⟨"double", ?_, .same fun hnarrows => absurd hnarrows.1 (by decide)⟩
    rcases ht.of_numeric hassign.numeric with ⟨rfl, -⟩ | ⟨rfl, -⟩ <;> rfl
  · obtain ⟨e, t, rfl, rfl, hassign, ht⟩ := typedAs_of_argument hes hts
    have hnumeric := hassign.numeric
    refine typedAs_of_promoted rfl ⟨List.mem_cons_self, List.mem_cons_self⟩ ht ht hnumeric hnumeric
      ?_
    simp [Expr.Narrows]
  · obtain ⟨l, r, a, b, rfl, rfl, ⟨hla, ha⟩, hra, hb⟩ := typedAs_of_arguments hes hts
    rw [methodType?_of_mem hhost]
    refine typedAs_of_promoted rfl ⟨List.mem_cons_self, ?_⟩ ha hb hla.numeric hra.numeric ?_
    · exact List.mem_cons_of_mem _ (List.mem_singleton_self r)
    · simp [Expr.Narrows, List.mem_cons_of_mem _ hhost]

/-! Expressions. -/

theorem type_constant (l : LetLang.Literal) : (constant l).type = l.ty.defaultHost := by
  cases l <;> rfl

/-- The variables in these expressions have their types as locals. -/
def VarsTyped (locals : List (String × String)) (es : List (Expr .typed)) : Prop :=
  ∀ x span t, Below Expr.operands es (.var x span t) → locals.lookup x.name = some t.defaultHost

theorem VarsTyped.lift {locals : List (String × String)} {es es' : List (Expr .typed)}
    (h : VarsTyped locals es) (hes : ∀ e ∈ es', Below Expr.operands es e) : VarsTyped locals es' :=
  fun x span t hx => h x span t (hx.lift hes)

theorem VarsTyped.operands {locals : List (String × String)} {e : Expr .typed}
    (h : VarsTyped locals [e]) : VarsTyped locals e.operands :=
  h.lift fun _ ho => .part (.root (List.mem_singleton_self e)) ho

theorem VarsTyped.one {locals : List (String × String)} {e : Expr .typed}
    {es : List (Expr .typed)} (h : VarsTyped locals es) (he : e ∈ es) : VarsTyped locals [e] := by
  apply h.lift
  intro e' he'
  obtain rfl := List.mem_singleton.1 he'
  exact .root he

variable {locals : List (String × String)}

mutual

/-- Every expression has a static type. -/
theorem typedAs_of_expr {e : Expr .parsed} {e' : Expr .typed} :
    ExprTyped .standard env e e' → VarsTyped locals [e'] →
    ∃ t, (term e').type? locals = some t ∧ TypedAs e' t
  | .literal _, _ => by
    refine ⟨_, ?_, .same nofun⟩
    rw [term, Term.type?, type_constant]
    rfl
  | .group h, hvars => by
    obtain ⟨t, ht, htyped⟩ := typedAs_of_expr h hvars.operands
    refine ⟨t, by rw [term, Term.type?, ht], ?_⟩
    cases htyped with
    | same => exact .same nofun
    | narrowed hd hsome => exact .narrowed hd (.of_operands hsome)
  | .binary hl hr hop, hvars => by
    obtain ⟨a, ha, hla⟩ := typedAs_of_expr hl (hvars.operands.one List.mem_cons_self)
    obtain ⟨b, hb, hrb⟩ := typedAs_of_expr hr
      (hvars.operands.one (List.mem_cons_of_mem _ (List.mem_singleton_self _)))
    obtain ⟨t, ht, htyped⟩ := typedAs_of_operator hla hrb hop
    refine ⟨t, ?_, htyped⟩
    rw [term, Term.type?, ha, hb]
    exact ht
  | .var _, hvars => ⟨_, hvars _ _ _ (.root (List.mem_singleton_self _)), .same nofun⟩
  | .call hs hes, hvars => by
    obtain ⟨ts, hts, htyped⟩ := typedAs_of_exprs hes hvars.operands
    obtain ⟨t, ht, hcall⟩ := typedAs_of_call hs hes htyped
    refine ⟨t, ?_, hcall⟩
    rw [term, Term.type?, hts]
    exact ht

theorem typedAs_of_exprs {es : List (Expr .parsed)} {ps : List Ty} {es' : List (Expr .typed)} :
    ArgumentsTyped .standard env es ps es' → VarsTyped locals es' →
    ∃ ts, types? locals (terms es') = some ts ∧ List.Forall₂ TypedAs es' ts
  | .nil, _ => ⟨[], by rw [terms, types?], .nil⟩
  | .cons h _ hes, hvars => by
    obtain ⟨t, ht, htyped⟩ := typedAs_of_expr h (hvars.one List.mem_cons_self)
    obtain ⟨ts, hts, hall⟩ := typedAs_of_exprs hes
      (hvars.lift fun _ he => .root (List.mem_cons_of_mem _ he))
    refine ⟨t :: ts, ?_, .cons htyped hall⟩
    rw [terms, types?, ht, hts]
    rfl

end

/-! Where a type is lost. -/

theorem exists_typed_of_operand {catalog : Catalog} {e : Expr .parsed} {e' a : Expr .typed}
    (h : ExprTyped catalog env e e') (ha : a ∈ e'.operands) : ∃ p, ExprTyped catalog env p a := by
  cases h with
  | literal | var => cases ha
  | group h =>
    obtain rfl := List.mem_singleton.1 ha
    exact ⟨_, h⟩
  | binary hl hr _ =>
    rcases List.mem_cons.1 ha with rfl | ha
    · exact ⟨_, hl⟩
    · obtain rfl := List.mem_singleton.1 ha
      exact ⟨_, hr⟩
  | @call _ es es' s _ _ hes =>
    have hargs : ∀ es ps es', ArgumentsTyped catalog env es ps es' → a ∈ es' →
        ∃ p, ExprTyped catalog env p a := by
      intro es ps es' hes
      induction es' generalizing es ps with
      | nil => nofun
      | cons e' es' ih =>
        intro ha
        cases hes with
        | cons h _ hes =>
          rcases List.mem_cons.1 ha with rfl | ha
          · exact ⟨_, h⟩
          · exact ih _ _ hes ha
    exact hargs _ _ _ hes ha

theorem exists_typed_of_below {catalog : Catalog} {es : List (Expr .typed)} {a : Expr .typed}
    (hes : ∀ e ∈ es, ∃ p, ExprTyped catalog env p e) (ha : Below Expr.operands es a) :
    ∃ p, ExprTyped catalog env p a := by
  induction ha with
  | root ha => exact hes _ ha
  | part _ ha ih =>
    obtain ⟨p, hp⟩ := ih
    exact exists_typed_of_operand hp ha

theorem typedAs_of_below {es : List (Expr .typed)} {e : Expr .typed}
    (hes : ∀ e ∈ es, ∃ p, ExprTyped .standard env p e) (hvars : VarsTyped locals es)
    (he : Below Expr.operands es e) : ∃ t, (term e).type? locals = some t ∧ TypedAs e t := by
  obtain ⟨p, hp⟩ := exists_typed_of_below hes he
  refine typedAs_of_expr hp (hvars.lift fun o ho => ?_)
  rwa [List.mem_singleton.1 ho]

/-- Truth values and numbers have their own types in all of these expressions if and only if no part
of them is a call of this kind. -/
theorem types_kept_iff {es : List (Expr .typed)}
    (hes : ∀ e ∈ es, ∃ p, ExprTyped .standard env p e) (hvars : VarsTyped locals es) :
    (∀ e, Below Expr.operands es e → e.ty ∈ [.boolean, .integer, .decimal] →
      (term e).type? locals = some e.ty.defaultHost) ↔
      ∀ e, Below Expr.operands es e → ¬ e.Narrows := by
  constructor
  · intro hkept e he hnarrows
    obtain ⟨t, ht, htyped⟩ := typedAs_of_below hes hvars he
    cases htyped with
    | same hnot => exact hnot hnarrows
    | narrowed hd _ =>
      have hdouble := hkept e he (by simp [hd])
      rw [ht, hd] at hdouble
      exact absurd hdouble (by decide)
  · intro hnone e he _
    obtain ⟨t, ht, htyped⟩ := typedAs_of_below hes hvars he
    cases htyped with
    | same _ => exact ht
    | narrowed _ hsome =>
      obtain ⟨a, ha, hnarrows⟩ := hsome
      refine absurd hnarrows (hnone a (ha.lift fun o ho => ?_))
      rwa [List.mem_singleton.1 ho]

end Java

end LetLang
