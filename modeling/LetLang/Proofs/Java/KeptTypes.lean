import LetLang.Proofs.Java.Locals
import LetLang.Proofs.Java.StaticTypes

/-!
Static types in compiled programs. A local variable is in scope from its own initial value on, up to
the end of its block, and the innermost one of a name is meant. The checker reads an initial value
before it binds the name, so where a name is declared again in a block inside, its own initial value
means another variable to Java. Apart from that, a variable has its own type at each place, and what
becomes of the types of a statement can be read off its calls.
-/

namespace LetLang

namespace Nesting

variable {α β : Type} {N : Nesting α} {M : Nesting β} {vars : α → List (String × String)}
  {vars' : β → List (String × String)}

/-- A statement at any depth, and the local variables in scope there, its own among them. -/
inductive Reaches (N : Nesting α) (vars : α → List (String × String)) :
    List (String × String) → List α → List (String × String) → α → Prop
  | here {locals : List (String × String)} {s : α} {ss : List α} :
      Reaches N vars locals (s :: ss) (vars s ++ locals) s
  | inside {locals locals' : List (String × String)} {s s' : α} {ss block : List α} :
      block ∈ N.blocks s → Reaches N vars locals block locals' s' →
      Reaches N vars locals (s :: ss) locals' s'
  | later {locals locals' : List (String × String)} {s s' : α} {ss : List α} :
      Reaches N vars (vars s ++ locals) ss locals' s' → Reaches N vars locals (s :: ss) locals' s'

theorem Reaches.simulate {R : α → β → Prop} (hsim : Simulates N M R)
    (hvars : ∀ a b, R a b → vars a = vars' b) {locals locals' : List (String × String)}
    {as : List α} {bs : List β} {a : α} (h : N.Reaches vars locals as locals' a)
    (hr : List.Forall₂ R as bs) : ∃ b, M.Reaches vars' locals bs locals' b ∧ R a b := by
  induction h generalizing bs with
  | here =>
    obtain ⟨b, bs, hab, -, rfl⟩ := List.forall₂_cons_left_iff.1 hr
    exact ⟨b, hvars _ _ hab ▸ .here, hab⟩
  | inside hmem _ ih =>
    obtain ⟨b, bs, hab, -, rfl⟩ := List.forall₂_cons_left_iff.1 hr
    obtain ⟨block', hmem', hblock⟩ := exists_of_forall₂ (hsim.blocks _ _ hab) hmem
    obtain ⟨b', hreaches, hab'⟩ := ih hblock
    exact ⟨b', .inside hmem' hreaches, hab'⟩
  | later _ ih =>
    obtain ⟨b, bs, hab, hbs, rfl⟩ := List.forall₂_cons_left_iff.1 hr
    obtain ⟨b', hreaches, hab'⟩ := ih hbs
    rw [hvars _ _ hab] at hreaches
    exact ⟨b', .later hreaches, hab'⟩

end Nesting

/-- No initial value reads an outer variable of the declared name, unless it has the declared
type. -/
def Stmt.OwnNameKept (s : Stmt .typed) : Prop :=
  ∀ x t initial span, s = .declaration x t initial span →
    ∀ y u span', Below Expr.operands s.exprs (.var y span' u) → y.name = x.name → u = t

namespace Java

open Rules

def Term.operands : Term → List Term
  | .literal _ | .name _ => []
  | .group inner => [inner]
  | .binary _ lhs rhs => [lhs, rhs]
  | .call _ args => args

/-- The expressions that a command itself evaluates. -/
def Command.terms : Command → List Term
  | .declare _ _ initial => initial.toList
  | .assign _ e | .run e | .branch e _ _ | .loop e _ => [e]

/-- The local variables that a command declares, with their types. -/
def Command.vars : Command → List (String × String)
  | .declare type x _ => [(x, type)]
  | _ => []

def parameters : List (String × String) := [("args", "String[]")]

/-- A typed statement of the program, and the local variables in scope at its command. -/
def Places (program : Block .typed) (locals : List (String × String)) (s : Stmt .typed) : Prop :=
  Stmt.nesting.Reaches (fun s => (command .standard s).vars) parameters program locals s

theorem forall₂_commands (ss : Block .typed) :
    List.Forall₂ (fun s c => command .standard s = c) ss (commands .standard ss) := by
  induction ss with
  | nil =>
    rw [commands]
    exact .nil
  | cons s ss ih =>
    rw [commands]
    exact .cons rfl ih

theorem simulates_command :
    Nesting.Simulates Stmt.nesting Command.nesting fun s c => command .standard s = c where
  local_eq := by
    rintro s c rfl
    cases s <;> rfl
  blocks := by
    rintro s c rfl
    cases s with
    | branch test yes no span =>
      rw [command]
      refine .cons (forall₂_commands yes) (.cons ?_ .nil)
      rw [getD_commands]
      exact forall₂_commands no
    | loop test body span =>
      rw [command]
      exact .cons (forall₂_commands body) .nil
    | _ =>
      rw [command]
      exact .nil

/-- The places of the commands are those of the statements. -/
theorem reaches_commands_iff {program : Block .typed} {locals : List (String × String)}
    {c : Command} :
    Command.nesting.Reaches Command.vars parameters (commands .standard program) locals c ↔
      ∃ s, Places program locals s ∧ command .standard s = c := by
  constructor
  · intro h
    exact h.simulate simulates_command.flip (by rintro c s rfl; rfl) (forall₂_commands program).flip
  · rintro ⟨s, h, rfl⟩
    obtain ⟨c, hc, rfl⟩ := h.simulate simulates_command (by rintro s c rfl; rfl)
      (forall₂_commands program)
    exact hc

theorem terms_eq_map (es : List (Expr .typed)) : terms es = es.map term := by
  induction es with
  | nil => rw [terms, List.map_nil]
  | cons e es ih => rw [terms, ih, List.map_cons]

theorem operands_term (e : Expr .typed) : (term e).operands = e.operands.map term := by
  cases e <;> simp only [term, Term.operands, Expr.operands, terms_eq_map, List.map_cons,
    List.map_nil]

theorem terms_command (s : Stmt .typed) : (command .standard s).terms = s.exprs.map term := by
  cases s with
  | declaration x t initial span => cases initial <;> simp [command, Command.terms, Stmt.exprs]
  | _ => simp only [command, Command.terms, Stmt.exprs, List.map_cons, List.map_nil]

/-! What is in scope. -/

/-- The innermost local of each visible name has its type. -/
def Agrees (env : Env) (locals : List (String × String)) : Prop :=
  ∀ x t, env.Sees x t → locals.lookup x = some t.defaultHost

variable {env env' : Env} {locals : List (String × String)}

theorem agrees_root : Agrees (.ofScope .root) parameters := by
  intro x t hx
  rw [Env.sees_ofScope_iff] at hx
  cases hx

theorem Agrees.nested (h : Agrees env locals) : Agrees env.nested locals :=
  fun x t hx => h x t (Env.sees_nested_iff.1 hx)

theorem Agrees.bind (h : Agrees env locals) (x : String) (t : Ty) :
    Agrees (env.bind x t) ((x, t.defaultHost) :: locals) := by
  intro y u hy
  rw [Env.sees_bind_iff] at hy
  rw [List.lookup_cons]
  split at hy
  · next he =>
    subst he hy
    simp
  · next hne =>
    rw [beq_false_of_ne hne]
    exact h y u hy

theorem Agrees.stmt {s : Stmt .parsed} {s' : Stmt .typed} (h : Agrees env locals)
    (hs : StmtTyped .standard env s s' env') :
    Agrees env' ((command .standard s').vars ++ locals) := by
  cases hs with
  | declaration => exact h.bind _ _
  | _ => exact h

theorem exists_typed_of_reaches {locals' : List (String × String)} {ss : Block .parsed}
    {ss' : Block .typed} {s' : Stmt .typed}
    (h : Stmt.nesting.Reaches (fun s => (command .standard s).vars) locals ss' locals' s')
    (hss : BlockTyped .standard env ss ss' env') (hagrees : Agrees env locals) :
    ∃ env s env' outer, StmtTyped .standard env s s' env' ∧ Agrees env outer ∧
      locals' = (command .standard s').vars ++ outer := by
  induction h generalizing env env' ss with
  | here =>
    cases hss with
    | cons hs _ => exact ⟨_, _, _, _, hs, hagrees, rfl⟩
  | inside hmem _ ih =>
    cases hss with
    | cons hs _ =>
      cases hs with
      | branch _ _ _ hyes hno =>
        rcases List.mem_cons.1 hmem with rfl | hmem
        · exact ih hyes hagrees.nested
        · obtain rfl := List.mem_singleton.1 hmem
          exact ih hno hagrees.nested
      | loop _ _ hbody =>
        obtain rfl := List.mem_singleton.1 hmem
        exact ih hbody hagrees.nested
      | _ => cases hmem
  | later _ ih =>
    cases hss with
    | cons hs hss => exact ih hss (hagrees.stmt hs)

/-! Statements. -/

theorem exists_typed_of_exprs {s : Stmt .parsed} {s' : Stmt .typed}
    (h : StmtTyped .standard env s s' env') :
    ∀ e ∈ s'.exprs, ∃ p, ExprTyped .standard env p e := by
  intro e he
  cases h with
  | declaration _ _ _ hinitial _ =>
    cases hinitial with
    | none => cases he
    | some h _ =>
      obtain rfl := List.mem_singleton.1 he
      exact ⟨_, h⟩
  | expr _ h | assignment _ h _ | branch h _ _ _ _ | loop h _ _ =>
    obtain rfl := List.mem_singleton.1 he
    exact ⟨_, h⟩

theorem sees_of_below {es : List (Expr .typed)} {x : Ident} {span : Span} {t : Ty}
    (hes : ∀ e ∈ es, ∃ p, ExprTyped .standard env p e)
    (h : Below Expr.operands es (.var x span t)) : env.Sees x.name t := by
  obtain ⟨p, hp⟩ := exists_typed_of_below hes h
  cases hp with
  | var hx => exact hx

theorem varsTyped_of_ownNameKept {s : Stmt .parsed} {s' : Stmt .typed}
    (h : StmtTyped .standard env s s' env') (hagrees : Agrees env locals) (hown : s'.OwnNameKept) :
    VarsTyped ((command .standard s').vars ++ locals) s'.exprs := by
  intro y span u hy
  have hlookup := hagrees _ _ (sees_of_below (exists_typed_of_exprs h) hy)
  cases h with
  | @declaration _ x _ t =>
    rw [command, Command.vars, List.singleton_append, List.lookup_cons]
    by_cases hyx : y.name = x.name
    · rw [hown _ _ _ _ rfl y u span hy hyx, hyx, BEq.rfl]
      rfl
    · rw [beq_false_of_ne hyx]
      exact hlookup
  | _ => exact hlookup

theorem defaultHost_injective {t u : Ty} (h : t.defaultHost = u.defaultHost) : t = u := by
  cases t <;> cases u <;> first | rfl | exact absurd h (by decide)

/-- What becomes of the types of a statement in Java, with these local variables: which expressions
there are, where a variable has its type, and what then follows for the others. -/
structure StaticTypes (locals : List (String × String)) (s : Stmt .typed) : Prop where
  terms : ∀ t, Below Term.operands (command .standard s).terms t ↔
    ∃ e, Below Expr.operands s.exprs e ∧ term e = t
  vars : (∀ x span t, Below Expr.operands s.exprs (.var x span t) →
    locals.lookup x.name = some (Catalog.standard.hostType t)) ↔ s.OwnNameKept
  near : s.OwnNameKept → ∀ e, Below Expr.operands s.exprs e →
    (term e).type? locals = some (Catalog.standard.hostType e.ty) ∨
      e.ty = .decimal ∧ (term e).type? locals = some "int"
  kept_iff : s.OwnNameKept →
    ((∀ e, Below Expr.operands s.exprs e → e.ty ∈ [.boolean, .integer, .decimal] →
        (term e).type? locals = some (Catalog.standard.hostType e.ty)) ↔
      ∀ e, Below Expr.operands s.exprs e → ¬ e.Narrows)

theorem staticTypes_of_typed {s : Stmt .parsed} {s' : Stmt .typed}
    (h : StmtTyped .standard env s s' env') (hagrees : Agrees env locals) :
    StaticTypes ((command .standard s').vars ++ locals) s' where
  terms := by
    intro t
    rw [terms_command]
    exact Below.map_iff operands_term
  vars := by
    constructor
    · rintro hvars x t initial span rfl y u span' hy hyx
      have hlookup := hvars y span' u hy
      rw [command, Command.vars, List.singleton_append, hyx, List.lookup_cons_self] at hlookup
      exact (defaultHost_injective (Option.some.inj hlookup)).symm
    · exact varsTyped_of_ownNameKept h hagrees
  near := by
    intro hown e he
    obtain ⟨t, ht, htyped⟩ := typedAs_of_below (exists_typed_of_exprs h)
      (varsTyped_of_ownNameKept h hagrees hown) he
    cases htyped with
    | same _ => exact .inl ht
    | narrowed hd _ => exact .inr ⟨hd, ht⟩
  kept_iff := by
    intro hown
    exact types_kept_iff (exists_typed_of_exprs h) (varsTyped_of_ownNameKept h hagrees hown)

/-! Programs. -/

theorem typedTree_of_compile {options : Options} {source text : String} {tree : Block .parsed}
    {program : Block .typed} (h : Compiler.compile .standard options source = .ok text)
    (htree : Compiler.tree source = .ok tree)
    (htyped : BlockTyped .standard (.ofScope .root) tree program env) :
    Compiler.typedTree .standard source = .ok program := by
  obtain ⟨program', hprogram', -⟩ := Compiler.compile_eq_ok h
  obtain ⟨tree', htree', hok⟩ := Compiler.typedTree_eq_ok hprogram'
  obtain rfl := Except.ok.inj (htree'.symm.trans htree)
  have hblock := ((Typing.block_gives_iff .root tree').2 htyped).1
  rwa [Except.ok.inj (hblock.symm.trans (Typing.block_of_program hok))]

/-- Every source that is compiled. The commands of the one program that its text reads as are those
of the typed statements, in the scope of the same local variables. Variables have their types in
Java, unless an initial value reads an outer variable of the declared name. All other expressions
have them too, if and only if none of them is a call of `abs`, `min` or `max` with an `INTEGER` for
each argument; otherwise some `DECIMAL` is an `int` in Java, and this is the only other type that
there is. -/
theorem staticTypes_of_compile (options : Options) (source text : String)
    (hclass : IsName options.className)
    (h : Compiler.compile .standard options source = .ok text) :
    ∃ program, Compiler.typedTree .standard source = .ok program ∧
      (∀ p, ReadsAs text p ↔ p = ⟨options.className, commands .standard program⟩) ∧
      (∀ locals c,
        Command.nesting.Reaches Command.vars parameters (commands .standard program) locals c ↔
          ∃ s, Places program locals s ∧ command .standard s = c) ∧
      ∀ locals s, Places program locals s → StaticTypes locals s := by
  obtain ⟨tree, program, env, htree, htyped, hreads⟩ := exists_of_compile hclass h
  refine ⟨program, typedTree_of_compile h htree htyped, ?_, fun _ _ => reaches_commands_iff, ?_⟩
  · intro p
    constructor
    · intro hp
      exact hp.unique hreads
    · rintro rfl
      exact hreads
  · intro locals s hplace
    obtain ⟨_, _, _, outer, hs, hagrees, rfl⟩ := exists_typed_of_reaches hplace htyped agrees_root
    exact staticTypes_of_typed hs hagrees

/-- Each of these calls has a `DECIMAL` among its arguments. -/
theorem staticTypes_of_mixed_calls :
    IsName "Main" ∧ ∃ text, Compiler.compile .standard .default
        "LET x : DECIMAL = abs(7.5) / 2; WHILE x == max(1, x) DO LET y : INTEGER; END" =
          .ok text ∧
      ∃ program, Compiler.typedTree .standard
          "LET x : DECIMAL = abs(7.5) / 2; WHILE x == max(1, x) DO LET y : INTEGER; END" =
            .ok program ∧
        (∀ p, ReadsAs text p ↔ p = ⟨"Main", commands .standard program⟩) ∧
        (∀ locals c,
          Command.nesting.Reaches Command.vars parameters (commands .standard program) locals c ↔
            ∃ s, Places program locals s ∧ command .standard s = c) ∧
        ∀ locals s, Places program locals s → StaticTypes locals s := by
  have hclass : IsName "Main" := by decide
  have hok : (Compiler.compile .standard .default
      "LET x : DECIMAL = abs(7.5) / 2; WHILE x == max(1, x) DO LET y : INTEGER; END").isOk := by
    decide +kernel
  obtain ⟨text, h⟩ := Except.exists_eq_ok hok
  exact ⟨hclass, text, h, staticTypes_of_compile .default _ text hclass h⟩

/-- A quotient of the `abs` of an `INTEGER` by an `INTEGER` is a `DECIMAL`, and Java divides ints
for it. -/
theorem int_of_abs_quotient {span span' : Span} {x : Ident} {n m : String} {ns ms : Span}
    {e : Expr .typed} (hx : x.name = "abs")
    (h : ExprTyped .standard env (.binary .div
      (.call x [.literal (.integer n) ns ()] () span ()) (.literal (.integer m) ms ()) span' ()) e) :
    ∃ l r, e = .binary .div l r span' .decimal ∧ (term e).type? locals = some "int" := by
  cases h with
  | binary hl hr hop =>
    cases hl with
    | call hs hargs =>
      have habs : Catalog.standard.function? "abs" 1 = some ⟨[.decimal], .decimal, "Math.abs"⟩ := by
        decide
      rw [hx] at hs
      cases habs.symm.trans hs
      cases hargs with
      | cons harg _ hargs =>
        cases hargs
        cases harg with
        | literal hn =>
          cases hr with
          | literal hm =>
            cases hn
            cases hm
            cases hop with
            | decimal => exact ⟨_, _, rfl, rfl⟩

theorem int_of_halved_abs :
    ∃ text program,
      Compiler.compile .standard .default "LET x : DECIMAL = abs(7) / 2;" = .ok text ∧
      Compiler.typedTree .standard "LET x : DECIMAL = abs(7) / 2;" = .ok program ∧
      ReadsAs text ⟨"Main", commands .standard program⟩ ∧
      ∃ locals s l r span, Places program locals s ∧ .binary .div l r span .decimal ∈ s.exprs ∧
        (term (.binary .div l r span .decimal)).type? locals = some "int" := by
  have hok : (Compiler.compile .standard .default "LET x : DECIMAL = abs(7) / 2;").isOk := by
    decide +kernel
  obtain ⟨text, h⟩ := Except.exists_eq_ok hok
  obtain ⟨tree, program, env, htree, htyped, hreads⟩ := exists_of_compile (by decide) h
  refine ⟨text, program, h, typedTree_of_compile h htree htyped, hreads, ?_⟩
  have hparsed : Compiler.tree "LET x : DECIMAL = abs(7) / 2;" =
      .ok [.declaration ⟨"x", ⟨4, 1⟩⟩ ⟨"DECIMAL", ⟨8, 7⟩⟩
        (some (.binary .div
          (.call ⟨"abs", ⟨18, 3⟩⟩ [.literal (.integer "7") ⟨22, 1⟩ ()] () ⟨18, 6⟩ ())
          (.literal (.integer "2") ⟨27, 1⟩ ()) ⟨18, 10⟩ ())) ⟨0, 29⟩] := by
    with_unfolding_all rfl
  cases htree.symm.trans hparsed
  cases htyped with
  | cons hs _ =>
    cases hs with
    | declaration _ _ _ hinitial _ =>
      cases hinitial with
      | some he _ =>
        obtain ⟨l, r, rfl, htype⟩ := int_of_abs_quotient rfl he
        exact ⟨_, _, l, r, _, .here, List.mem_singleton_self _, htype⟩

end Java

end LetLang
