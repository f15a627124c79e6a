import LetLang.Proofs.Catalog.History
import LetLang.Proofs.Compiler.Results
import LetLang.Proofs.Tree.Parts
import LetLang.Proofs.Typing.Effects

/-!
Catalogs that get more functions. A program reads a catalog in three ways: it looks functions up, it
asks of the names that it declares whether they are reserved, and its types are written as the
catalog says. A new function changes no lookup that has found something, but its qualifier may be a
name of the program. Where it is not, nothing changes for a program that was accepted before.
-/

namespace LetLang

open Rules

/-- The functions of `c` are functions of `c'`. -/
def Catalog.FunctionsIn (c c' : Catalog) : Prop :=
  ∀ name n s, c.function? name n = some s → c'.function? name n = some s

/-- What this block reads of `c` reads the same in `c'`: functions that are found, names that are
free to declare, and how types are written. -/
structure Catalog.Extends (c c' : Catalog) (b : Block .parsed) : Prop where
  functions : c.FunctionsIn c'
  unreserved : ∀ x, DeclaredIn b x → ¬ HostReserved c x → ¬ HostReserved c' x
  hostType : c'.hostType = c.hostType

namespace Catalog.Extends

variable {c c' : Catalog} {b : Block .parsed}

theorem lift {b' : Block .parsed} (h : c.Extends c' b) (hb : ∀ s ∈ b', Below Stmt.inner b s) :
    c.Extends c' b' where
  functions := h.functions
  unreserved x hx := h.unreserved x (hx.lift hb)
  hostType := h.hostType

theorem head {s : Stmt .parsed} {ss : Block .parsed} (h : c.Extends c' (s :: ss)) :
    c.Extends c' [s] :=
  h.lift Below.of_head

theorem tail {s : Stmt .parsed} {ss : Block .parsed} (h : c.Extends c' (s :: ss)) :
    c.Extends c' ss :=
  h.lift Below.of_tail

theorem inner {s : Stmt .parsed} {ss : Block .parsed} (h : c.Extends c' [s])
    (hss : ∀ r ∈ ss, r ∈ s.inner) : c.Extends c' ss :=
  h.lift (Below.of_parts hss)

end Catalog.Extends

/-! Derivations. Every one of `c` is one of `c'`. -/

section Derivations

variable {c c' : Catalog}

mutual

theorem Rules.ExprTyped.extend (hc : c.FunctionsIn c') {env : Env}
    {e : Expr .parsed} {e' : Expr .typed} : ExprTyped c env e e' → ExprTyped c' env e e'
  | .literal hl => .literal hl
  | .group he => .group (he.extend hc)
  | .binary hl hr hop => .binary (hl.extend hc) (hr.extend hc) hop
  | .var hx => .var hx
  | .call hs hargs => .call (hc _ _ _ hs) (hargs.extend hc)

theorem Rules.ArgumentsTyped.extend (hc : c.FunctionsIn c') {env : Env}
    {es : List (Expr .parsed)} {ts : List Ty} {es' : List (Expr .typed)} :
    ArgumentsTyped c env es ts es' → ArgumentsTyped c' env es ts es'
  | .nil => .nil
  | .cons he hassign hes => .cons (he.extend hc) hassign (hes.extend hc)

end

theorem Rules.InitialTyped.extend (hc : c.FunctionsIn c') {env : Env}
    {t : Ty} {initial : Option (Expr .parsed)} {initial' : Option (Expr .typed)}
    (h : InitialTyped c env t initial initial') : InitialTyped c' env t initial initial' := by
  cases h with
  | none => exact .none
  | some he hassign => exact .some (he.extend hc) hassign

mutual

theorem Rules.StmtTyped.extend {env env' : Env} {s : Stmt .parsed} {s' : Stmt .typed} :
    StmtTyped c env s s' env' → c.Extends c' [s] → StmtTyped c' env s s' env'
  | .expr hcall he, hc => .expr hcall (he.extend hc.functions)
  | .declaration hr hname hvoid hinitial hfree, hc =>
    .declaration (hc.unreserved _ (declaredIn_declaration ..) hr) hname hvoid
      (hinitial.extend hc.functions) hfree
  | .assignment hx he hassign, hc => .assignment hx (he.extend hc.functions) hassign
  | .branch htest hbool hne hyes hno, hc =>
    .branch (htest.extend hc.functions) hbool hne
      (hyes.extend (hc.inner fun _ hr => List.mem_append_left _ hr))
      (hno.extend (hc.inner fun _ hr => List.mem_append_right _ hr))
  | .loop htest hbool hbody, hc =>
    .loop (htest.extend hc.functions) hbool (hbody.extend (hc.inner fun _ hr => hr))

theorem Rules.BlockTyped.extend {env env' : Env} {ss : Block .parsed} {ss' : Block .typed} :
    BlockTyped c env ss ss' env' → c.Extends c' ss → BlockTyped c' env ss ss' env'
  | .nil, _ => .nil
  | .cons hs hss, hc => .cons (hs.extend hc.head) (hss.extend hc.tail)

end

end Derivations

namespace Typing

theorem Binds.unique {ss : Block .parsed} {bs cs : List (String × Ty)} (h : Binds ss bs)
    (h' : Binds ss cs) : bs = cs := by
  induction h generalizing cs with
  | nil =>
    cases h'
    rfl
  | declaration ht _ ih =>
    cases h' with
    | declaration ht' h' =>
      rw [ht] at ht'
      rw [Option.some.inj ht', ih h']
    | other hs _ => exact absurd rfl (hs _ _ _ _)
  | other hs _ ih =>
    cases h' with
    | declaration _ _ => exact absurd rfl (hs _ _ _ _)
    | other _ h' => exact ih h'

variable {c c' : Catalog} {scope : Scope} {b : Block .parsed} {b' : Block .typed}

/-- The bindings are those of the declarations, whatever catalog they are accepted with. -/
theorem block_extend (hc : c.Extends c' b) (h : (block c scope b).1 = .ok b') :
    block c' scope b = block c scope b := by
  have htyped := (block_gives_iff scope b).1 ⟨h, rfl⟩
  obtain ⟨h', -⟩ := (block_gives_iff scope b).2 (htyped.extend hc)
  obtain ⟨bs, hbs, hlast⟩ := effect_of_block (Prod.ext h rfl)
  obtain ⟨cs, hcs, hlast'⟩ := effect_of_block (Prod.ext h' rfl)
  obtain rfl := hbs.unique hcs
  exact Prod.ext (h'.trans h.symm) (hlast'.trans hlast.symm)

theorem program_extend (hc : c.Extends c' b) (h : (program c scope b).1 = .ok b') :
    program c' scope b = program c scope b := by
  unfold program at h ⊢
  split
  · rfl
  · next hne =>
    rw [if_neg hne] at h
    exact block_extend hc h

end Typing

namespace Java

variable {c c' : Catalog}

mutual

/-- All that a printed statement has from the catalog is how types are written. -/
theorem stmt_of_hostType (h : c'.hostType = c.hostType) (level : Nat) :
    (s : Stmt .typed) → stmt c' level s = stmt c level s
  | .expr .. | .assignment .. => by simp only [stmt]
  | .declaration _ _ none _ | .declaration _ _ (some _) _ => by simp only [stmt, h]
  | .branch _ yes no _ => by
    simp only [stmt, block_of_hostType h (level + 1) yes, block_of_hostType h (level + 1) no]
  | .loop _ body _ => by simp only [stmt, block_of_hostType h (level + 1) body]

theorem block_of_hostType (h : c'.hostType = c.hostType) (level : Nat) :
    (ss : Block .typed) → block c' level ss = block c level ss
  | [] => by simp only [block]
  | s :: ss => by rw [block, block, stmt_of_hostType h level s, block_of_hostType h level ss]

end

theorem generate?_of_hostType (h : c'.hostType = c.hostType) (options : Options)
    (program : Block .typed) : generate? c' options program = generate? c options program := by
  rw [generate?, generate?, lines, lines, block_of_hostType h]

end Java

namespace Catalog

/-- The step defines a function under a key that is free in `c`, and its qualifier, if it has one,
is no name that the block declares. -/
inductive Step.Adds (c : Catalog) (b : Block .parsed) : Step → Prop
  | define {name : String} {s : Signature} :
      c.function? name s.params.length = none → (∀ x, s.Qualified x → ¬ DeclaredIn b x) →
      Adds c b (.define name s)

variable {c : Catalog} {h : List Step} {b : Block .parsed}

theorem extends_run (hadds : ∀ a ∈ h, a.Adds c b) : c.Extends (c.run h) b where
  functions := by
    intro name n s hs
    refine function?_run_eq_some_iff.2 (.inr ⟨?_, hs⟩)
    intro a ha hdefines
    cases hadds a ha with
    | define hfree _ =>
      obtain ⟨rfl, rfl⟩ := hdefines
      rw [hs] at hfree
      cases hfree
  unreserved := by
    intro x hx hfree hreserved
    apply hfree
    rw [hostReserved_iff] at hreserved ⊢
    refine hreserved.imp_right ?_
    rintro ⟨name, n, s, hs, hqualified⟩
    rcases function?_run_eq_some_iff.1 hs with hlast | ⟨-, hs⟩
    · cases hadds _ hlast.mem with
      | define _ hnone => exact absurd hx (hnone x hqualified)
    · exact ⟨name, n, s, hs, hqualified⟩
  hostType := by
    funext t
    apply hostType_run_of_none
    intro a ha hnames
    cases hadds a ha with
    | define _ _ => cases hnames

/-- Two functions that a host may have. -/
def rounding : List Step :=
  [.define "floor" ⟨[.decimal], .integer, "Numbers.floor"⟩,
    .define "abs" ⟨[.decimal, .integer], .decimal, "Numbers.absTo"⟩]

/-- Every catalog, every program that it accepts and every scope. Functions are added in any order,
each under a key that the catalog does not have, and no name that the program declares, at any
depth, is a qualifier of theirs. Then typing ends in the same tree and leaves the same scope, and
the tree is generated as the same Java for all options. -/
theorem program_run_of_adds (c : Catalog) (h : List Step) (scope : Scope) (b : Block .parsed)
    (b' : Block .typed) (hadds : ∀ a ∈ h, a.Adds c b)
    (hok : (Typing.program c scope b).1 = .ok b') :
    Typing.program (c.run h) scope b = Typing.program c scope b ∧
      ∀ options, Java.generate? (c.run h) options b' = Java.generate? c options b' := by
  have hextends := extends_run hadds
  refine ⟨Typing.program_extend hextends hok, ?_⟩
  intro options
  exact Java.generate?_of_hostType hextends.hostType options b'

/-- A new function may be called like a variable, or like an old function of another arity. -/
theorem program_run_of_floor :
    ∃ b b', parseProgram "WHILE TRUE DO LET floor : DECIMAL = abs(1); print(floor); END" = .ok b ∧
      (∀ a ∈ rounding, a.Adds standard b) ∧ (Typing.program standard .root b).1 = .ok b' ∧
      Typing.program (standard.run rounding) .root b = Typing.program standard .root b ∧
      ∀ options, Java.generate? (standard.run rounding) options b' =
        Java.generate? standard options b' := by
  have htyped : (Compiler.typedIn standard .root
      "WHILE TRUE DO LET floor : DECIMAL = abs(1); print(floor); END").1.isOk := by decide +kernel
  obtain ⟨b, b', hb, hb'⟩ := Compiler.exists_typed_of_isOk htyped
  have hparse : parseProgram "WHILE TRUE DO LET floor : DECIMAL = abs(1); print(floor); END" =
      .ok [.loop (.literal (.bool true) ⟨6, 4⟩ ())
        [.declaration ⟨"floor", ⟨18, 5⟩⟩ ⟨"DECIMAL", ⟨26, 7⟩⟩
            (some (.call ⟨"abs", ⟨36, 3⟩⟩ [.literal (.integer "1") ⟨40, 1⟩ ()] () ⟨36, 6⟩ ()))
            ⟨14, 29⟩,
          .expr (.call ⟨"print", ⟨44, 5⟩⟩ [.var ⟨"floor", ⟨50, 5⟩⟩ ⟨50, 5⟩ ()] () ⟨44, 12⟩ ())
            ⟨44, 13⟩] ⟨0, 61⟩] := by
    with_unfolding_all rfl
  have hdeclared : ∀ x, DeclaredIn b x → x = "floor" := by
    cases hparse.symm.trans hb
    rintro x ⟨name, ty, initial, span, hbelow, rfl⟩
    refine hbelow.forall_singleton (P := fun s => ∀ name ty initial span,
      s = .declaration name ty initial span → name.name = "floor") nofun ?_ name ty initial span rfl
    intro r hr a ha
    rcases List.mem_cons.1 hr with rfl | hr
    · obtain rfl := ha.eq_of_leaf rfl
      rintro _ _ _ _ ⟨⟩
      rfl
    · obtain rfl := List.mem_singleton.1 hr
      obtain rfl := ha.eq_of_leaf rfl
      nofun
  have hadds : ∀ a ∈ rounding, a.Adds standard b := by
    have hqualified : ∀ s : Signature, s.qualifier? = some "Numbers" → ∀ x, s.Qualified x →
        ¬ DeclaredIn b x := by
      intro s hs x hx hdeclares
      rw [Signature.qualifier?_eq_some_iff.2 hx, hdeclared x hdeclares] at hs
      exact absurd hs (by decide)
    intro a ha
    rcases List.mem_cons.1 ha with rfl | ha
    · exact .define (by decide) (hqualified _ (by decide))
    · obtain rfl := List.mem_singleton.1 ha
      exact .define (by decide) (hqualified _ (by decide))
  obtain ⟨hprogram, hjava⟩ := program_run_of_adds standard rounding .root b b' hadds hb'
  exact ⟨b, b', hb, hadds, hb', hprogram, hjava⟩

end Catalog

end LetLang
