import LetLang.Proofs.Tree.Parts
import LetLang.Tree.Parser
import LetLang.Typing

/-!
What typing sees of a scope. A program looks up the variables that it reads and assigns, wherever
they are bound, and it asks of the names that it declares itself whether they are taken in the
innermost block. Scopes that agree in this give one result, whatever else is bound in them and at
whatever depth.
-/

namespace LetLang

namespace Expr

variable {p : Phase}

mutual

/-- The variables that an expression reads. -/
def reads : Expr p → List String
  | literal _ _ _ => []
  | group inner _ _ => inner.reads
  | binary _ lhs rhs _ _ => lhs.reads ++ rhs.reads
  | var x _ _ => [x.name]
  | call _ args _ _ _ => readsAll args

def readsAll : List (Expr p) → List String
  | [] => []
  | e :: es => e.reads ++ readsAll es

end

end Expr

namespace Stmt

variable {p : Phase}

mutual

/-- The variables that a statement reads or assigns, at any depth. -/
def uses : Stmt p → List String
  | expr e _ => e.reads
  | declaration _ _ initial _ => initial.elim [] Expr.reads
  | assignment x e _ => x.name :: e.reads
  | branch c yes no _ => c.reads ++ (usesAll yes ++ usesAll no)
  | loop c body _ => c.reads ++ usesAll body

def usesAll : Block p → List String
  | [] => []
  | s :: ss => s.uses ++ usesAll ss

end

end Stmt

/-- What is `used` stands for the same in both scopes, and what is `declared` is bound in the
innermost block of both or of neither. -/
structure Scope.LooksLike (used declared : List String) (s s' : Scope) : Prop where
  lookup : ∀ x ∈ used, s.lookup? x = s'.lookup? x
  bound : ∀ x ∈ declared, (s.local? x).isSome = (s'.local? x).isSome

namespace Scope.LooksLike

variable {used declared : List String} {s s' : Scope}

theorem define (h : LooksLike used declared s s') (x : String) (t : Ty) :
    LooksLike used declared (s.define x t) (s'.define x t) where
  lookup y hy := by rw [lookup?_define, lookup?_define, h.lookup y hy]
  bound y hy := by
    simp only [local?, Scope.define, Table.get?_insert]
    split
    · rfl
    · exact h.bound y hy

/-- In a fresh block no name is taken. -/
theorem enter (h : LooksLike used declared s s') (declared' : List String) :
    LooksLike used declared' s.enter s'.enter where
  lookup := h.lookup
  bound _ _ := rfl

end Scope.LooksLike

namespace Typing

variable {catalog : Catalog} {used declared : List String} {s s' : Scope}

mutual

theorem expr_of_lookup : (e : Expr .parsed) → (∀ x ∈ e.reads, s.lookup? x = s'.lookup? x) →
    expr catalog s e = expr catalog s' e
  | .literal _ _ _, _ => by simp only [expr]
  | .group inner _ _, h => by
    simp only [Expr.reads] at h
    simp only [expr, expr_of_lookup inner h]
  | .binary _ lhs rhs _ _, h => by
    simp only [Expr.reads, List.forall_mem_append] at h
    simp only [expr, expr_of_lookup lhs h.1, expr_of_lookup rhs h.2]
  | .var x _ _, h => by
    simp only [Expr.reads, List.forall_mem_singleton] at h
    simp only [expr, h]
  | .call _ args _ _ _, h => by
    simp only [Expr.reads] at h
    simp only [expr, arguments_of_lookup args h]

theorem arguments_of_lookup : (args : List (Expr .parsed)) →
    (∀ x ∈ Expr.readsAll args, s.lookup? x = s'.lookup? x) → {params : List Ty} →
    arguments catalog s args params = arguments catalog s' args params
  | [], _, _ => by simp only [arguments]
  | _ :: _, _, [] => by simp only [arguments]
  | arg :: args, h, _ :: _ => by
    simp only [Expr.readsAll, List.forall_mem_append] at h
    simp only [arguments, expr_of_lookup arg h.1, arguments_of_lookup args h.2]

end

theorem value_of_lookup {e : Expr .parsed} (h : ∀ x ∈ e.reads, s.lookup? x = s'.lookup? x)
    (target : Ty) : value catalog s target e = value catalog s' target e := by
  rw [value, value, expr_of_lookup e h]

theorem condition_of_lookup {e : Expr .parsed} (h : ∀ x ∈ e.reads, s.lookup? x = s'.lookup? x) :
    condition catalog s e = condition catalog s' e := by
  rw [condition, condition, expr_of_lookup e h]

theorem initialValue_of_lookup {initial : Option (Expr .parsed)}
    (h : ∀ x ∈ initial.elim [] Expr.reads, s.lookup? x = s'.lookup? x) (target : Ty) :
    initialValue catalog s target initial = initialValue catalog s' target initial := by
  cases initial with
  | none => rfl
  | some e => rw [initialValue, initialValue, value_of_lookup h]

/-- The same result, and scopes after it that look alike again. -/
inductive Agree (used declared : List String) {α : Type} :
    TypeResult α × Scope → TypeResult α × Scope → Prop
  | intro {r : TypeResult α} {s s' : Scope} :
      s.LooksLike used declared s' → Agree used declared (r, s) (r, s')

theorem Agree.result {α : Type} {q q' : TypeResult α × Scope} (h : Agree used declared q q') :
    q.1 = q'.1 := by
  cases h
  rfl

theorem Agree.scope {α : Type} {q q' : TypeResult α × Scope} (h : Agree used declared q q') :
    q.2.LooksLike used declared q'.2 := by
  cases h
  assumption

theorem declaration_agree (h : s.LooksLike used declared s') {x ty : Ident}
    {initial : Option (Expr .parsed)} {span : Span}
    (hreads : ∀ y ∈ initial.elim [] Expr.reads, y ∈ used) (hx : x.name ∈ declared) :
    Agree used declared (declaration catalog s x ty initial span)
      (declaration catalog s' x ty initial span) := by
  have hinitial (t : Ty) : initialValue catalog s t initial = initialValue catalog s' t initial :=
    initialValue_of_lookup (fun y hy => h.lookup y (hreads y hy)) t
  simp only [declaration, hinitial, h.bound _ hx]
  split
  · exact .intro h
  · exact .intro (h.define ..)

mutual

theorem stmt_agree {declared : List String} {s s' : Scope} (h : s.LooksLike used declared s') :
    (r : Stmt .parsed) → (∀ x ∈ r.uses, x ∈ used) → (∀ x ∈ r.declared?, x ∈ declared) →
    Agree used declared (stmt catalog s r) (stmt catalog s' r)
  | .expr e _, hused, _ => by
    simp only [Stmt.uses] at hused
    simp only [stmt, expr_of_lookup e fun x hx => h.lookup x (hused x hx)]
    exact .intro h
  | .declaration x ty initial span, hused, hdeclared => by
    simp only [Stmt.uses] at hused
    simp only [stmt]
    exact declaration_agree h hused (hdeclared x.name rfl)
  | .assignment x e _, hused, _ => by
    simp only [Stmt.uses, List.forall_mem_cons] at hused
    obtain ⟨hx, he⟩ := hused
    simp only [stmt, h.lookup _ hx, value_of_lookup fun y hy => h.lookup y (he y hy)]
    exact .intro h
  | .branch c yes no _, hused, _ => by
    simp only [Stmt.uses, List.forall_mem_append] at hused
    obtain ⟨hc, hyes, hno⟩ := hused
    have hyes := block_agree (h.enter _) yes hyes fun _ hx => hx
    have hno := block_agree (h.enter _) no hno fun _ hx => hx
    simp only [stmt, condition_of_lookup fun x hx => h.lookup x (hc x hx), hyes.result, hno.result]
    exact .intro h
  | .loop c body _, hused, _ => by
    simp only [Stmt.uses, List.forall_mem_append] at hused
    obtain ⟨hc, hbody⟩ := hused
    have hbody := block_agree (h.enter _) body hbody fun _ hx => hx
    simp only [stmt, condition_of_lookup fun x hx => h.lookup x (hc x hx), hbody.result]
    exact .intro h

theorem block_agree {declared : List String} {s s' : Scope} (h : s.LooksLike used declared s') :
    (ss : Block .parsed) → (∀ x ∈ Stmt.usesAll ss, x ∈ used) →
    (∀ x ∈ ss.filterMap Stmt.declared?, x ∈ declared) →
    Agree used declared (block catalog s ss) (block catalog s' ss)
  | [], _, _ => by
    simp only [block]
    exact .intro h
  | r :: ss, hused, hdeclared => by
    simp only [Stmt.usesAll, List.forall_mem_append] at hused
    obtain ⟨hr, hss⟩ := hused
    have hhead : Agree used declared (stmt catalog s r) (stmt catalog s' r) := by
      refine stmt_agree h r hr fun x hx => hdeclared x ?_
      exact List.mem_filterMap.2 ⟨r, List.mem_cons_self, hx⟩
    simp only [block]
    generalize stmt catalog s r = q, stmt catalog s' r = q' at hhead ⊢
    obtain @⟨e | r', mid, mid', hmid⟩ := hhead
    · exact .intro hmid
    · have hrest : Agree used declared (block catalog mid ss) (block catalog mid' ss) := by
        refine block_agree hmid ss hss fun x hx => hdeclared x ?_
        obtain ⟨r', hr', hx⟩ := List.mem_filterMap.1 hx
        exact List.mem_filterMap.2 ⟨r', List.mem_cons_of_mem _ hr', hx⟩
      dsimp only
      generalize block catalog mid ss = q, block catalog mid' ss = q' at hrest ⊢
      obtain @⟨e | ss', last, last', hlast⟩ := hrest
      · exact .intro hlast
      · exact .intro hlast

end

/-- Every catalog, program and pair of scopes, of whatever depth and with whatever else is bound in
them. What the program reads or assigns stands for the same in both, and what it declares at its top
level is bound in the innermost block of both or of neither. Then the typed tree is the same, or the
error is, and the scopes that are left look alike again. -/
theorem program_agree (catalog : Catalog) (b : Block .parsed) (s s' : Scope)
    (h : s.LooksLike (Stmt.usesAll b) (b.filterMap Stmt.declared?) s') :
    (program catalog s b).1 = (program catalog s' b).1 ∧
      (program catalog s b).2.LooksLike (Stmt.usesAll b) (b.filterMap Stmt.declared?)
        (program catalog s' b).2 := by
  have hagree : Agree (Stmt.usesAll b) (b.filterMap Stmt.declared?) (program catalog s b)
      (program catalog s' b) := by
    rw [program, program]
    split
    · exact .intro h
    · exact block_agree h b (fun _ hx => hx) fun _ hx => hx
  exact ⟨hagree.result, hagree.scope⟩

/-- `LET y : INTEGER = x; WHILE TRUE DO LET x : DECIMAL = y; END` -/
def readThenShadow : Block .parsed :=
  [.declaration ⟨"y", ⟨4, 1⟩⟩ ⟨"INTEGER", ⟨8, 7⟩⟩ (some (.var ⟨"x", ⟨18, 1⟩⟩ ⟨18, 1⟩ ())) ⟨0, 20⟩,
    .loop (.literal (.bool true) ⟨27, 4⟩ ())
      [.declaration ⟨"x", ⟨39, 1⟩⟩ ⟨"DECIMAL", ⟨43, 7⟩⟩
        (some (.var ⟨"y", ⟨53, 1⟩⟩ ⟨53, 1⟩ ())) ⟨35, 20⟩] ⟨21, 38⟩]

/-- An outer block may bind `x` too, and the block around the program may bind other names. -/
theorem program_agree_of_deeper_scope :
    parseProgram "LET y : INTEGER = x; WHILE TRUE DO LET x : DECIMAL = y; END" =
        .ok readThenShadow ∧
      (Scope.root.define "x" .integer).LooksLike (Stmt.usesAll readThenShadow)
        (readThenShadow.filterMap Stmt.declared?)
        (((Scope.root.define "x" .string).enter.define "x" .integer).enter.define "z" .any) ∧
      (program .standard (Scope.root.define "x" .integer) readThenShadow).1 =
        (program .standard
          (((Scope.root.define "x" .string).enter.define "x" .integer).enter.define "z" .any)
          readThenShadow).1 ∧
      (program .standard (Scope.root.define "x" .integer) readThenShadow).1.isOk := by
  have h : (Scope.root.define "x" .integer).LooksLike (Stmt.usesAll readThenShadow)
      (readThenShadow.filterMap Stmt.declared?)
      (((Scope.root.define "x" .string).enter.define "x" .integer).enter.define "z" .any) :=
    ⟨by decide, by decide⟩
  exact ⟨by with_unfolding_all rfl, h, (program_agree .standard readThenShadow _ _ h).1, by decide⟩

end Typing

end LetLang
