import LetLang.Proofs.Tree.Parts
import LetLang.Tree.Parser
import LetLang.Typing
import Mathlib.Logic.Embedding.Basic

/-!
Variables under other names. A renaming is injective, so it keeps different variables apart; it does
not touch the names of functions and types. Typing commutes with it: a program with renamed variables
has the renamed typed tree or the same error about the renamed variable, and it leaves the renamed
scope.
-/

namespace LetLang

/-! Everything that has variables in it, with other names for them. -/

/-- The same entries under other keys. -/
def Table.mapKeys {κ κ' α : Type} (f : κ ↪ κ') (t : Table κ α) : Table κ' α where
  entries := t.entries.map fun e => (f e.1, e.2)
  distinct := List.pairwise_map.2 (t.distinct.imp fun hne he => hne (f.injective he))

def Scope.rename (r : String ↪ String) (s : Scope) : Scope :=
  ⟨s.current.mapKeys r, s.outer.map (Table.mapKeys r)⟩

def Ident.rename (r : String ↪ String) (x : Ident) : Ident := { x with name := r x.name }

namespace Expr

variable {p : Phase} (r : String ↪ String)

mutual

/-- What is called is not a variable. -/
def rename : Expr p → Expr p
  | literal value s note => .literal value s note
  | group inner s note => .group inner.rename s note
  | binary op lhs rhs s note => .binary op lhs.rename rhs.rename s note
  | var x s note => .var (x.rename r) s note
  | call x args callee s note => .call x (renameAll args) callee s note

def renameAll : List (Expr p) → List (Expr p)
  | [] => []
  | e :: es => e.rename :: renameAll es

end

end Expr

namespace Stmt

variable {p : Phase} (r : String ↪ String)

mutual

def rename : Stmt p → Stmt p
  | expr e s => .expr (e.rename r) s
  | declaration x ty initial s => .declaration (x.rename r) ty (initial.map (Expr.rename r)) s
  | assignment x e s => .assignment (x.rename r) (e.rename r) s
  | branch c yes no s => .branch (c.rename r) (renameAll yes) (renameAll no) s
  | loop c body s => .loop (c.rename r) (renameAll body) s

def renameAll : Block p → Block p
  | [] => []
  | s :: ss => s.rename :: renameAll ss

end

end Stmt

def TypeError.rename (r : String ↪ String) : TypeError → TypeError
  | reservedName x => .reservedName (r x)
  | redeclaration x => .redeclaration (r x)
  | undeclared x => .undeclared (r x)
  | e => e

/-- The results go through `f`, and an error stays where it is. -/
def TypeResult.rename (r : String ↪ String) {α : Type} (f : α → α) (q : TypeResult α) :
    TypeResult α :=
  (q.mapError (Located.map (TypeError.rename r))).map f

/-- The same for a result with the scope after it. -/
def TypeResult.renameIn (r : String ↪ String) {α : Type} (f : α → α) (q : TypeResult α × Scope) :
    TypeResult α × Scope :=
  (rename r f q.1, q.2.rename r)

/-! Scopes. A name stands for the same after renaming. -/

section Scopes

variable {κ κ' α : Type} [DecidableEq κ] [DecidableEq κ']

theorem Table.get?_mapKeys (f : κ ↪ κ') (t : Table κ α) (k : κ) :
    (t.mapKeys f).get? (f k) = t.get? k := by
  simp only [get?, mapKeys, List.find?_map, Function.comp_def, f.injective.eq_iff, Option.map_map]

theorem Table.mapKeys_insert (f : κ ↪ κ') (t : Table κ α) (k : κ) (a : α) :
    (t.insert k a).mapKeys f = (t.mapKeys f).insert (f k) a := by
  simp only [insert, mapKeys, List.map_cons, List.filter_map, Function.comp_def, ne_eq,
    f.injective.eq_iff]

end Scopes

namespace Scope

variable (r : String ↪ String) (s : Scope)

@[simp] theorem rename_root : root.rename r = root := rfl

theorem rename_enter : s.enter.rename r = (s.rename r).enter := rfl

theorem rename_define (x : String) (t : Ty) :
    (s.define x t).rename r = (s.rename r).define (r x) t := by
  simp only [rename, define, Table.mapKeys_insert]

theorem local?_rename (x : String) : (s.rename r).local? (r x) = s.local? x :=
  Table.get?_mapKeys r s.current x

theorem lookup?_rename (x : String) : (s.rename r).lookup? (r x) = s.lookup? x := by
  rw [lookup?_eq, lookup?_eq, local?_rename, rename, List.findSome?_map]
  simp only [Function.comp_def, Table.get?_mapKeys]

end Scope

/-! Results. -/

namespace TypeResult

variable {r : String ↪ String} {α β : Type} {f : α → α} {g : β → β}

@[simp] theorem rename_ok (a : α) : rename r f (.ok a) = .ok (f a) := rfl

@[simp] theorem rename_error (e : Located TypeError) :
    rename r f (.error e) = .error (e.map (.rename r)) := rfl

/-- Renaming goes step by step. -/
theorem rename_bind {q : TypeResult α} {k : α → TypeResult β} {k' : α → TypeResult β}
    (h : ∀ a, k' (f a) = rename r g (k a)) : rename r f q >>= k' = rename r g (q >>= k) := by
  cases q with
  | ok a => exact h a
  | error e => rfl

theorem rename_map {q : TypeResult α} {k k' : α → β} (h : ∀ a, k' (f a) = g (k a)) :
    k' <$> rename r f q = rename r g (k <$> q) := by
  cases q with
  | ok a => exact congrArg Except.ok (h a)
  | error e => rfl

end TypeResult

section Nodes

variable {p : Phase} (r : String ↪ String)

@[simp] theorem Expr.span_rename (e : Expr p) : (e.rename r).span = e.span := by
  cases e <;> rfl

@[simp] theorem Expr.note_rename (e : Expr p) : (e.rename r).note = e.note := by
  cases e <;> rfl

@[simp] theorem Expr.isCall_rename (e : Expr p) : (e.rename r).isCall = e.isCall := by
  cases e <;> rfl

theorem Expr.length_renameAll (es : List (Expr p)) : (renameAll r es).length = es.length := by
  induction es with
  | nil => rfl
  | cons e es ih => exact congrArg Nat.succ ih

theorem Stmt.isEmpty_renameAll (ss : Block p) : (renameAll r ss).isEmpty = ss.isEmpty := by
  cases ss <;> rfl

end Nodes

namespace Typing

variable {catalog : Catalog} {r : String ↪ String} {scope : Scope}

mutual

theorem expr_rename (scope : Scope) : (e : Expr .parsed) →
    expr catalog (scope.rename r) (e.rename r) =
      TypeResult.rename r (Expr.rename r) (expr catalog scope e)
  | .literal raw span _ => by
    simp only [Expr.rename, expr]
    cases raw.check <;> rfl
  | .group inner span _ => by
    simp only [Expr.rename, expr, expr_rename scope inner]
    apply TypeResult.rename_bind
    intro a
    rw [Expr.ty, Expr.note_rename]
    rfl
  | .binary op lhs rhs span _ => by
    simp only [Expr.rename, expr, expr_rename scope lhs, expr_rename scope rhs]
    apply TypeResult.rename_bind
    intro a
    apply TypeResult.rename_bind
    intro b
    rw [Expr.ty, Expr.ty, Expr.note_rename, Expr.note_rename]
    cases op.type? a.note b.note <;> rfl
  | .var x span _ => by
    simp only [Expr.rename, expr, Ident.rename, Scope.lookup?_rename]
    cases scope.lookup? x.name <;> rfl
  | .call x args _ span _ => by
    simp only [Expr.rename, expr, Expr.length_renameAll]
    cases catalog.function? x.name args.length with
    | none => rfl
    | some signature =>
      dsimp only
      rw [arguments_rename scope args signature.params]
      exact TypeResult.rename_bind fun _ => rfl

theorem arguments_rename (scope : Scope) : (args : List (Expr .parsed)) → (params : List Ty) →
    arguments catalog (scope.rename r) (Expr.renameAll r args) params =
      TypeResult.rename r (Expr.renameAll r) (arguments catalog scope args params)
  | [], _ => by
    simp only [Expr.renameAll, arguments]
    rfl
  | _ :: _, [] => by
    simp only [Expr.renameAll, arguments]
    rfl
  | arg :: args, param :: params => by
    simp only [Expr.renameAll, arguments, expr_rename scope arg]
    apply TypeResult.rename_bind
    intro a
    rw [Expr.ty, Expr.note_rename, Expr.span_rename, arguments_rename scope args params]
    split
    · exact TypeResult.rename_bind fun _ => rfl
    · rfl

end

theorem value_rename (target : Ty) (e : Expr .parsed) :
    value catalog (scope.rename r) target (e.rename r) =
      TypeResult.rename r (Expr.rename r) (value catalog scope target e) := by
  rw [value, value, expr_rename]
  apply TypeResult.rename_bind
  intro a
  rw [Expr.ty, Expr.note_rename, Expr.span_rename]
  split <;> rfl

theorem condition_rename (e : Expr .parsed) :
    condition catalog (scope.rename r) (e.rename r) =
      TypeResult.rename r (Expr.rename r) (condition catalog scope e) := by
  rw [condition, condition, expr_rename]
  apply TypeResult.rename_bind
  intro a
  rw [Expr.ty, Expr.note_rename, Expr.span_rename]
  split <;> rfl

theorem initialValue_rename (target : Ty) (initial : Option (Expr .parsed)) :
    initialValue catalog (scope.rename r) target (initial.map (Expr.rename r)) =
      TypeResult.rename r (Option.map (Expr.rename r))
        (initialValue catalog scope target initial) := by
  cases initial with
  | none => rfl
  | some e =>
    rw [Option.map_some, initialValue, initialValue, value_rename]
    exact TypeResult.rename_map fun _ => rfl

/-- A declared name is free to declare just if its new name is. -/
theorem declaredType_rename {x ty : Ident}
    (hr : catalog.isReserved (r x.name) = catalog.isReserved x.name) :
    declaredType catalog (x.rename r) ty =
      TypeResult.rename r id (declaredType catalog x ty) := by
  rw [declaredType, declaredType, Ident.rename, hr]
  split
  · rfl
  · split <;> rfl

theorem declaration_rename {x ty : Ident} {initial : Option (Expr .parsed)} {span : Span}
    (hr : catalog.isReserved (r x.name) = catalog.isReserved x.name) :
    declaration catalog (scope.rename r) (x.rename r) ty (initial.map (Expr.rename r)) span =
      TypeResult.renameIn r (Stmt.rename r) (declaration catalog scope x ty initial span) := by
  have hchecked : (do
      let t ← declaredType catalog (x.rename r) ty
      let initial ← initialValue catalog (scope.rename r) t (initial.map (Expr.rename r))
      return (t, initial)) = TypeResult.rename r (Prod.map id (Option.map (Expr.rename r))) (do
      let t ← declaredType catalog x ty
      let initial ← initialValue catalog scope t initial
      return (t, initial)) := by
    rw [declaredType_rename hr]
    apply TypeResult.rename_bind
    intro t
    rw [id, initialValue_rename]
    exact TypeResult.rename_bind fun _ => rfl
  rw [declaration, declaration, hchecked]
  generalize (declaredType catalog x ty >>= _ : TypeResult (Ty × Option (Expr .typed))) = q
  obtain e | ⟨t, initial'⟩ := q
  · rfl
  · simp only [TypeResult.rename_ok, TypeResult.renameIn, Prod.map, id, Ident.rename,
      Scope.local?_rename, Scope.rename_define]
    split <;> rfl

/-- Of the names that the block declares, those are reserved whose new names are. -/
def ReservedAlike (catalog : Catalog) (r : String ↪ String) (b : Block .parsed) : Prop :=
  ∀ x, DeclaredIn b x → catalog.isReserved (r x) = catalog.isReserved x

theorem ReservedAlike.lift {b b' : Block .parsed} (h : ReservedAlike catalog r b)
    (hb : ∀ s ∈ b', Below Stmt.inner b s) : ReservedAlike catalog r b' :=
  fun x hx => h x (hx.lift hb)

mutual

theorem stmt_rename (scope : Scope) : (s : Stmt .parsed) → ReservedAlike catalog r [s] →
    stmt catalog (scope.rename r) (s.rename r) =
      TypeResult.renameIn r (Stmt.rename r) (stmt catalog scope s)
  | .expr e span, _ => by
    simp only [Stmt.rename, stmt, Expr.isCall_rename, Expr.span_rename, expr_rename]
    refine Prod.ext ?_ rfl
    dsimp only [TypeResult.renameIn]
    split
    · exact TypeResult.rename_map fun _ => rfl
    · rfl
  | .declaration x ty initial span, hr => by
    simp only [Stmt.rename, stmt]
    exact declaration_rename (hr _ (declaredIn_declaration ..))
  | .assignment x e span, _ => by
    simp only [Stmt.rename, stmt, Ident.rename, Scope.lookup?_rename]
    refine Prod.ext ?_ rfl
    dsimp only [TypeResult.renameIn]
    cases scope.lookup? x.name with
    | none => rfl
    | some t =>
      dsimp only
      rw [value_rename]
      exact TypeResult.rename_map fun _ => rfl
  | .branch c yes no span, hr => by
    have hyes := block_rename scope.enter yes
      (hr.lift (.of_parts fun _ h => List.mem_append_left _ h))
    have hno := block_rename scope.enter no
      (hr.lift (.of_parts fun _ h => List.mem_append_right _ h))
    rw [Scope.rename_enter] at hyes hno
    simp only [Stmt.rename, stmt, condition_rename, Stmt.isEmpty_renameAll, hyes, hno]
    refine Prod.ext (TypeResult.rename_bind fun c' => ?_) rfl
    split
    · rfl
    · refine TypeResult.rename_bind fun yes' => ?_
      exact TypeResult.rename_bind fun no' => rfl
  | .loop c body span, hr => by
    have hbody := block_rename scope.enter body (hr.lift (.of_parts fun _ h => h))
    rw [Scope.rename_enter] at hbody
    simp only [Stmt.rename, stmt, condition_rename, hbody]
    refine Prod.ext (TypeResult.rename_bind fun c' => ?_) rfl
    exact TypeResult.rename_bind fun body' => rfl

theorem block_rename (scope : Scope) : (ss : Block .parsed) → ReservedAlike catalog r ss →
    block catalog (scope.rename r) (Stmt.renameAll r ss) =
      TypeResult.renameIn r (Stmt.renameAll r) (block catalog scope ss)
  | [], _ => by
    simp only [Stmt.renameAll, block]
    rfl
  | s :: ss, hr => by
    simp only [Stmt.renameAll, block]
    rw [stmt_rename scope s (hr.lift .of_head)]
    rcases stmt catalog scope s with ⟨e | s', mid⟩
    · rfl
    · have hss := block_rename mid ss (hr.lift .of_tail)
      dsimp only [TypeResult.renameIn, TypeResult.rename_ok]
      rw [hss]
      rcases block catalog mid ss with ⟨e | ss', last⟩ <;> rfl

end

/-- Every catalog, program and renaming, from a fresh scope on. The names that the program declares
have new names that are reserved just if they are. Then the renamed program has the renamed typed
tree, or the same error at the same place about the renamed variable, and it leaves the renamed
scope. -/
theorem program_rename (catalog : Catalog) (r : String ↪ String) (b : Block .parsed)
    (hr : ReservedAlike catalog r b) :
    program catalog .root (Stmt.renameAll r b) =
      TypeResult.renameIn r (Stmt.renameAll r) (program catalog .root b) := by
  rw [program, program, Stmt.isEmpty_renameAll]
  split
  · rfl
  · have h := block_rename .root b hr
    rwa [Scope.rename_root] at h

/-- Two variables exchange their names, and one of them is called like a function. -/
def exchanged : String ↪ String := (Equiv.swap "x" "abs").toEmbedding

/-- `LET x : BOOLEAN; WHILE x DO LET abs : DECIMAL = abs(1); END print(abs);` -/
def loopThenPrint : Block .parsed :=
  [.declaration ⟨"x", ⟨4, 1⟩⟩ ⟨"BOOLEAN", ⟨8, 7⟩⟩ none ⟨0, 16⟩,
    .loop (.var ⟨"x", ⟨23, 1⟩⟩ ⟨23, 1⟩ ())
      [.declaration ⟨"abs", ⟨32, 3⟩⟩ ⟨"DECIMAL", ⟨38, 7⟩⟩
        (some (.call ⟨"abs", ⟨48, 3⟩⟩ [.literal (.integer "1") ⟨52, 1⟩ ()] () ⟨48, 6⟩ ()))
        ⟨28, 27⟩] ⟨17, 42⟩,
    .expr (.call ⟨"print", ⟨60, 5⟩⟩ [.var ⟨"abs", ⟨66, 3⟩⟩ ⟨66, 3⟩ ()] () ⟨60, 10⟩ ()) ⟨60, 11⟩]

theorem program_rename_of_exchanged :
    parseProgram "LET x : BOOLEAN; WHILE x DO LET abs : DECIMAL = abs(1); END print(abs);" =
        .ok loopThenPrint ∧
      ReservedAlike .standard exchanged loopThenPrint ∧
      program .standard .root (Stmt.renameAll exchanged loopThenPrint) =
        TypeResult.renameIn exchanged (Stmt.renameAll exchanged)
          (program .standard .root loopThenPrint) ∧
      (program .standard .root loopThenPrint).1 = .error ⟨⟨66, 3⟩, .undeclared "abs"⟩ ∧
      (program .standard .root (Stmt.renameAll exchanged loopThenPrint)).1 =
        .error ⟨⟨66, 3⟩, .undeclared "x"⟩ := by
  have hr : ReservedAlike .standard exchanged loopThenPrint := by
    intro x hx
    simp only [loopThenPrint, declaredIn_cons_iff, Stmt.inner, not_declaredIn_nil] at hx
    have hx : x = "x" ∨ x = "abs" := by grind
    rcases hx with rfl | rfl <;> decide
  have hrename := program_rename .standard exchanged loopThenPrint hr
  have herror : (program .standard .root loopThenPrint).1 =
      .error ⟨⟨66, 3⟩, .undeclared "abs"⟩ := by with_unfolding_all rfl
  refine ⟨by with_unfolding_all rfl, hr, hrename, herror, ?_⟩
  rw [hrename, TypeResult.renameIn, herror, TypeResult.rename_error]
  rfl

end Typing

end LetLang
