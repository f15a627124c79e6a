import LetLang.Proofs.Typing.Blame
import LetLang.Proofs.Typing.Blocks

/-!
What typing does to the scope it is given, however it ends. The declarations of the block itself
bind their names, one after the other, up to the first statement that fails; those of inner blocks
bind nothing there. A declaration that fails binds nothing either, unless it fails because its name
is taken: then the name stands for the new type.
-/

namespace LetLang

namespace Scope

/-- The names bound one after the other. -/
def defineAll (scope : Scope) (bs : List (String × Ty)) : Scope :=
  bs.foldl (fun s b => s.define b.1 b.2) scope

/-- The innermost block has these bindings over its own, the last of a name first; the blocks around
are the same. -/
structure Updates (scope : Scope) (bs : List (String × Ty)) (last : Scope) : Prop where
  outer : last.outer = scope.outer
  current : ∀ y, last.local? y = (bs.reverse.lookup y).or (scope.local? y)

theorem local?_define (s : Scope) (x y : String) (t : Ty) :
    (s.define x t).local? y = if y = x then some t else s.local? y := by
  unfold local? define
  exact Table.get?_insert ..

theorem defineAll_append (scope : Scope) (bs cs : List (String × Ty)) :
    scope.defineAll (bs ++ cs) = (scope.defineAll bs).defineAll cs := by
  unfold defineAll
  exact List.foldl_append ..

theorem updates_defineAll (scope : Scope) (bs : List (String × Ty)) :
    scope.Updates bs (scope.defineAll bs) := by
  induction bs generalizing scope with
  | nil => exact ⟨rfl, fun y => rfl⟩
  | cons b bs ih =>
    obtain ⟨x, t⟩ := b
    obtain ⟨houter, hcurrent⟩ := ih (scope.define x t)
    refine ⟨houter, fun y => ?_⟩
    rw [defineAll, List.foldl_cons, ← defineAll, hcurrent, local?_define, List.reverse_cons,
      List.lookup_append, Option.or_assoc]
    by_cases hy : y = x
    · simp [hy]
    · simp [List.lookup_cons, beq_false_of_ne hy, hy]

end Scope

namespace Typing

variable {catalog : Catalog} {scope : Scope} {err : Located TypeError}

/-- The bindings of the declarations among these statements, in order, each to its declared type.
What is declared inside of an `IF` or a `WHILE` is not one of these statements. -/
inductive Binds : Block .parsed → List (String × Ty) → Prop
  | nil : Binds [] []
  | declaration {x ty : Ident} {initial : Option (Expr .parsed)} {span : Span} {t : Ty}
      {ss : Block .parsed} {bs : List (String × Ty)} :
      Ty.ofName? ty.name = some t → Binds ss bs →
      Binds (.declaration x ty initial span :: ss) ((x.name, t) :: bs)
  | other {s : Stmt .parsed} {ss : Block .parsed} {bs : List (String × Ty)} :
      (∀ x ty initial span, s ≠ .declaration x ty initial span) → Binds ss bs → Binds (s :: ss) bs

theorem Binds.append {ss rs : Block .parsed} {bs cs : List (String × Ty)} (h : Binds ss bs)
    (h' : Binds rs cs) : Binds (ss ++ rs) (bs ++ cs) := by
  induction h with
  | nil => exact h'
  | declaration ht _ ih => exact .declaration ht ih
  | other hs _ ih => exact .other hs ih

/-- A declaration that fails because its name is taken in its own block. -/
def Redeclares (s : Stmt .parsed) (err : Located TypeError) : Prop :=
  ∃ x ty initial span, s = .declaration x ty initial span ∧ err = ⟨x.span, .redeclaration x.name⟩

mutual

theorem ne_redeclaration_of_expr {e : Expr .parsed} (h : expr catalog scope e = .error err)
    (x : String) : err.value ≠ .redeclaration x := by
  match e with
  | .literal raw span _ =>
    simp only [expr] at h
    split at h <;> cases h
    nofun
  | .group inner span _ =>
    simp only [expr] at h
    rcases Except.bind_eq_error_iff.1 h with h | ⟨_, -, h⟩
    · exact ne_redeclaration_of_expr h x
    · cases h
  | .binary op lhs rhs span _ =>
    simp only [expr] at h
    rcases Except.bind_eq_error_iff.1 h with h | ⟨_, -, h⟩
    · exact ne_redeclaration_of_expr h x
    rcases Except.bind_eq_error_iff.1 h with h | ⟨_, -, h⟩
    · exact ne_redeclaration_of_expr h x
    split at h <;> cases h
    nofun
  | .var name span _ =>
    simp only [expr] at h
    split at h <;> cases h
    nofun
  | .call name args _ span _ =>
    simp only [expr] at h
    split at h
    · cases h
      nofun
    · rcases Except.bind_eq_error_iff.1 h with h | ⟨_, -, h⟩
      · exact ne_redeclaration_of_arguments h x
      · cases h

theorem ne_redeclaration_of_arguments {args : List (Expr .parsed)} {params : List Ty}
    (h : arguments catalog scope args params = .error err) (x : String) :
    err.value ≠ .redeclaration x := by
  match args, params with
  | [], _ => cases h
  | _ :: _, [] => cases h
  | arg :: args, param :: params =>
    simp only [arguments] at h
    rcases Except.bind_eq_error_iff.1 h with h | ⟨arg', harg, h⟩
    · exact ne_redeclaration_of_expr h x
    split at h
    · rcases Except.bind_eq_error_iff.1 h with h | ⟨_, -, h⟩
      · exact ne_redeclaration_of_arguments h x
      · cases h
    · cases h
      nofun

end

theorem ne_redeclaration_of_value {target : Ty} {e : Expr .parsed}
    (h : value catalog scope target e = .error err) (x : String) :
    err.value ≠ .redeclaration x := by
  rcases Except.bind_eq_error_iff.1 h with h | ⟨e', he, h⟩
  · exact ne_redeclaration_of_expr h x
  · split at h <;> cases h
    nofun

/-- What a declaration is checked for before its name is bound has other errors. -/
theorem ne_redeclaration_of_checked {name ty : Ident} {initial : Option (Expr .parsed)}
    (h : (do
      let t ← declaredType catalog name ty
      let initial ← initialValue catalog scope t initial
      return (t, initial)) = Except.error err) (x : String) : err.value ≠ .redeclaration x := by
  rcases Except.bind_eq_error_iff.1 h with h | ⟨t, -, h⟩
  · unfold declaredType at h
    split at h
    · cases h
      nofun
    · split at h <;> cases h <;> nofun
  rcases Except.bind_eq_error_iff.1 h with h | ⟨initial', -, h⟩
  · cases initial with
    | none => cases h
    | some e => exact ne_redeclaration_of_value (Except.map_eq_error_iff.1 h) x
  · cases h

/-- Statements other than declarations leave the scope as it is. -/
theorem scope_of_other {s : Stmt .parsed}
    (hs : ∀ x ty initial span, s ≠ .declaration x ty initial span) :
    (stmt catalog scope s).2 = scope := by
  cases s with
  | declaration x ty initial span => exact absurd rfl (hs x ty initial span)
  | _ => simp only [stmt]

/-- What one statement does to the scope: it binds what it declares, also if the name is taken, or
it fails otherwise and binds nothing. -/
theorem effect_of_stmt (s : Stmt .parsed) :
    (∃ bs, Binds [s] bs ∧ (stmt catalog scope s).2 = scope.defineAll bs ∧
      ∀ e, (stmt catalog scope s).1 = .error e → Redeclares s e) ∨
    ∃ e, (stmt catalog scope s).1 = .error e ∧ ¬ Redeclares s e ∧
      (stmt catalog scope s).2 = scope := by
  by_cases hs : ∃ x ty initial span, s = .declaration x ty initial span
  · obtain ⟨x, ty, initial, span, rfl⟩ := hs
    simp only [stmt, declaration]
    split
    · next e he =>
      right
      refine ⟨e, rfl, ?_, rfl⟩
      rintro ⟨_, _, _, _, -, rfl⟩
      exact ne_redeclaration_of_checked he _ rfl
    · next t initial' hchecked =>
      left
      -- From here on the name is bound, whether or not it was taken.
      obtain ⟨⟨-, hname, -⟩, -⟩ := checked_eq_ok_iff.1 hchecked
      refine ⟨[(x.name, t)], .declaration (Ty.ofName?_eq_some_iff.2 hname) .nil, rfl, ?_⟩
      intro e he
      split at he
      · cases he
        exact ⟨x, ty, initial, span, rfl, rfl⟩
      · cases he
  · have hother : ∀ x ty initial span, s ≠ .declaration x ty initial span :=
      fun x ty initial span h => hs ⟨x, ty, initial, span, h⟩
    rw [scope_of_other hother]
    cases hr : (stmt catalog scope s).1 with
    | ok s' =>
      left
      refine ⟨[], .other hother .nil, rfl, ?_⟩
      intro e he
      cases he
    | error e =>
      right
      refine ⟨e, rfl, ?_, rfl⟩
      rintro ⟨x, ty, initial, span, rfl, -⟩
      exact hother x ty initial span rfl

/-- A block that is accepted binds what it declares. -/
theorem effect_of_block {ss : Block .parsed} {ss' : Block .typed} {last : Scope}
    (h : block catalog scope ss = (.ok ss', last)) :
    ∃ bs, Binds ss bs ∧ last = scope.defineAll bs := by
  induction ss generalizing scope ss' with
  | nil =>
    rw [block] at h
    cases h
    exact ⟨[], .nil, rfl⟩
  | cons s ss ih =>
    rw [block] at h
    have heffect := @effect_of_stmt catalog scope s
    generalize stmt catalog scope s = q at h heffect
    obtain ⟨e | s', mid⟩ := q
    · cases h
    dsimp only at h heffect
    obtain ⟨bs, hbs, rfl, -⟩ | ⟨e, he, -⟩ := heffect
    · generalize hrest : block catalog (scope.defineAll bs) ss = q at h
      obtain ⟨e | rest', after⟩ := q
      · cases h
      cases h
      obtain ⟨cs, hcs, rfl⟩ := ih hrest
      exact ⟨bs ++ cs, hbs.append hcs, (scope.defineAll_append bs cs).symm⟩
    · cases he

/-- How typing a program from a scope ends, and which bindings it leaves there. -/
inductive Leaves (catalog : Catalog) (scope : Scope) :
    Block .parsed → TypeResult (Block .typed) → List (String × Ty) → Prop
  | empty : Leaves catalog scope [] (.error ⟨⟨0, 0⟩, .emptySource⟩) []
  | accepted {b : Block .parsed} {b' : Block .typed} {bs : List (String × Ty)} :
      Binds b bs → Leaves catalog scope b (.ok b') bs
  | redeclared {before after : Block .parsed} {s : Stmt .parsed} {typed : Block .typed}
      {mid : Scope} {e : Located TypeError} {bs : List (String × Ty)} :
      block catalog scope before = (.ok typed, mid) → (stmt catalog mid s).1 = .error e →
      Redeclares s e → Binds (before ++ [s]) bs →
      Leaves catalog scope (before ++ s :: after) (.error e) bs
  | failed {before after : Block .parsed} {s : Stmt .parsed} {typed : Block .typed}
      {mid : Scope} {e : Located TypeError} {bs : List (String × Ty)} :
      block catalog scope before = (.ok typed, mid) → (stmt catalog mid s).1 = .error e →
      ¬ Redeclares s e → Binds before bs →
      Leaves catalog scope (before ++ s :: after) (.error e) bs

theorem block_of_failed {before after : Block .parsed} {s : Stmt .parsed} {typed : Block .typed}
    {mid : Scope} {e : Located TypeError} (h : block catalog scope before = (.ok typed, mid))
    (hs : (stmt catalog mid s).1 = .error e) :
    block catalog scope (before ++ s :: after) = (.error e, (stmt catalog mid s).2) := by
  rw [block_append, h]
  dsimp only
  rw [block]
  generalize stmt catalog mid s = q at hs
  obtain ⟨r, last⟩ := q
  obtain rfl : r = .error e := hs
  rfl

theorem leaves_of_block {b : Block .parsed} (hb : b ≠ []) :
    ∃ bs, Leaves catalog scope b (block catalog scope b).1 bs ∧
      (block catalog scope b).2 = scope.defineAll bs := by
  cases h : (block catalog scope b).1 with
  | ok b' =>
    obtain ⟨bs, hbs, hlast⟩ := effect_of_block (Prod.ext h rfl)
    exact ⟨bs, .accepted hbs, hlast⟩
  | error e =>
    obtain ⟨before, s, after, typed, mid, rfl, hbefore, hs⟩ := exists_stmt_of_block h
    rw [block_of_failed hbefore hs]
    obtain ⟨bs, hbs, rfl⟩ := effect_of_block hbefore
    rcases @effect_of_stmt catalog (scope.defineAll bs) s with
      ⟨cs, hcs, hlast, hredeclares⟩ | ⟨e', he', hne, hlast⟩
    · refine ⟨bs ++ cs, .redeclared hbefore hs (hredeclares e hs) (hbs.append hcs), ?_⟩
      rw [hlast, scope.defineAll_append]
    · cases hs.symm.trans he'
      exact ⟨bs, .failed hbefore hs hne hbs, hlast⟩

/-- Every program, catalog and scope, also where typing fails: the scopes around are the same, and
the scope itself is updated, in order, with what the declarations of the program before its first
failing statement bind, and with the binding of that statement just if it is refused for its taken
name. -/
theorem updates_of_program (catalog : Catalog) (scope : Scope) (b : Block .parsed) :
    ∃ bs, Leaves catalog scope b (program catalog scope b).1 bs ∧
      scope.Updates bs (program catalog scope b).2 := by
  by_cases hb : b = []
  · subst hb
    exact ⟨[], .empty, scope.updates_defineAll []⟩
  · rw [program_of_ne_nil hb]
    obtain ⟨bs, hleaves, hlast⟩ := leaves_of_block hb
    rw [hlast]
    exact ⟨bs, hleaves, scope.updates_defineAll bs⟩

end Typing

end LetLang
