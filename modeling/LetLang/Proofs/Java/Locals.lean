import LetLang.Proofs.Java.Readback
import Mathlib.Data.List.Forall2

/-!
Local variables of a compiled program. Java refuses a local variable where another one of its name,
or the parameter of `main`, is still in scope; its scope is the rest of its block, with the blocks
inside. The checker refuses a name that is taken in the same block, and it keeps `args` free; but a
block inside may declare a name again, and it is printed as it is. So the program is legal just if
no block of the source hides a name of a block around it.
-/

namespace LetLang

/-- Statements that may declare a name or hold blocks. -/
structure Nesting (α : Type) where
  local? : α → Option String
  blocks : α → List (List α)

namespace Nesting

variable {α β : Type} {N : Nesting α} {M : Nesting β}

/-- Some statement, at any depth, declares `x`. The names that are declared earlier are `own` in its
block, and `around` in the blocks around that. -/
inductive Declares (N : Nesting α) :
    List String → List String → List α → String → List String → List String → Prop
  | here {around own : List String} {s : α} {ss : List α} {x : String} :
      N.local? s = some x → Declares N around own (s :: ss) x around own
  | inside {around own around' own' : List String} {s : α} {ss block : List α} {x : String} :
      block ∈ N.blocks s → Declares N (around ++ own) [] block x around' own' →
      Declares N around own (s :: ss) x around' own'
  | later {around own around' own' : List String} {s : α} {ss : List α} {x : String} :
      Declares N around (own ++ (N.local? s).toList) ss x around' own' →
      Declares N around own (s :: ss) x around' own'

/-- Related statements declare the same name, and have related blocks. -/
structure Simulates (N : Nesting α) (M : Nesting β) (R : α → β → Prop) : Prop where
  local_eq : ∀ a b, R a b → N.local? a = M.local? b
  blocks : ∀ a b, R a b → List.Forall₂ (List.Forall₂ R) (N.blocks a) (M.blocks b)

theorem Simulates.flip {R : α → β → Prop} (h : Simulates N M R) : Simulates M N (flip R) where
  local_eq b a hab := (h.local_eq a b hab).symm
  blocks b a hab := (h.blocks a b hab).flip.imp fun _ _ hblock => hblock.flip

theorem exists_of_forall₂ {R : α → β → Prop} {as : List α} {bs : List β}
    (h : List.Forall₂ R as bs) {a : α} (ha : a ∈ as) : ∃ b ∈ bs, R a b := by
  induction h with
  | nil => cases ha
  | cons hab _ ih =>
    rcases List.mem_cons.1 ha with rfl | ha
    · exact ⟨_, List.mem_cons_self .., hab⟩
    · obtain ⟨b, hb, hab⟩ := ih ha
      exact ⟨b, List.mem_cons_of_mem _ hb, hab⟩

theorem Declares.simulate {R : α → β → Prop} (hsim : Simulates N M R)
    {around own around' own' : List String} {as : List α} {bs : List β} {x : String}
    (h : N.Declares around own as x around' own') (hr : List.Forall₂ R as bs) :
    M.Declares around own bs x around' own' := by
  induction h generalizing bs with
  | here hs =>
    obtain ⟨b, bs, hab, -, rfl⟩ := List.forall₂_cons_left_iff.1 hr
    exact .here ((hsim.local_eq _ _ hab).symm.trans hs)
  | inside hmem _ ih =>
    obtain ⟨b, bs, hab, -, rfl⟩ := List.forall₂_cons_left_iff.1 hr
    obtain ⟨block', hmem', hblock⟩ := exists_of_forall₂ (hsim.blocks _ _ hab) hmem
    exact .inside hmem' (ih hblock)
  | later _ ih =>
    obtain ⟨b, bs, hab, hbs, rfl⟩ := List.forall₂_cons_left_iff.1 hr
    have := ih hbs
    rw [hsim.local_eq _ _ hab] at this
    exact .later this

end Nesting

open Rules

def Stmt.nesting {p : Phase} : Nesting (Stmt p) where
  local?
    | .declaration x _ _ _ => some x.name
    | _ => none
  blocks
    | .branch _ yes no _ => [yes, no]
    | .loop _ body _ => [body]
    | _ => []

def Java.Command.nesting : Nesting Java.Command where
  local?
    | .declare _ x _ => some x
    | _ => none
  blocks
    | .branch _ yes no => [yes, no.getD []]
    | .loop _ body => [body]
    | _ => []

/-- In its own block no name is declared twice, and no reserved name is declared. -/
theorem Rules.BlockTyped.fresh {catalog : Catalog} {around own around' own' : List String}
    {ss : Block .parsed} {x : String} (hx : Stmt.nesting.Declares around own ss x around' own')
    {env env' : Env} {ss' : Block .typed} (h : BlockTyped catalog env ss ss' env')
    (hown : ∀ y ∈ own, env.here y ≠ none) : x ∉ own' ∧ ¬ HostReserved catalog x := by
  -- The names of `own` are taken in the block, and a block inside starts with none of them.
  induction hx generalizing env env' ss' with
  | here hs =>
    cases h with
    | cons h _ =>
      cases h with
      | declaration hr _ _ _ hfree =>
        cases hs
        exact ⟨fun hmem => hown _ hmem hfree, hr⟩
      | _ => cases hs
  | inside hmem _ ih =>
    cases h with
    | cons h _ =>
      cases h with
      | branch _ _ _ hyes hno =>
        rcases List.mem_cons.1 hmem with rfl | hmem
        · exact ih hyes nofun
        · obtain rfl := List.mem_singleton.1 hmem
          exact ih hno nofun
      | loop _ _ hbody =>
        obtain rfl := List.mem_singleton.1 hmem
        exact ih hbody nofun
      | _ => cases hmem
  | later _ ih =>
    cases h with
    | cons h hss =>
      refine ih hss fun y hy => ?_
      cases h with
      | @declaration _ z ty t =>
        by_cases hyz : y = z.name
        · simp [Env.bind, hyz]
        · have := hown y (by simpa [Stmt.nesting, hyz] using hy)
          simpa [Env.bind, hyz] using this
      | _ => exact hown y (by simpa [Stmt.nesting] using hy)

namespace Java

/-- A statement and the command that its typed form is printed as. -/
def Translates (catalog : Catalog) (s : Stmt .parsed) (c : Command) : Prop :=
  ∃ env s' env', StmtTyped catalog env s s' env' ∧ command catalog s' = c

theorem translates_of_block {catalog : Catalog} {env env' : Env} {ss : Block .parsed}
    {ss' : Block .typed} (h : BlockTyped catalog env ss ss' env') :
    List.Forall₂ (Translates catalog) ss (commands catalog ss') := by
  induction ss generalizing env ss' with
  | nil =>
    cases h
    rw [commands]
    exact .nil
  | cons s ss ih =>
    cases h with
    | cons h hss =>
      rw [commands]
      exact .cons ⟨_, _, _, h, rfl⟩ (ih hss)

theorem getD_commands (catalog : Catalog) (ss : Block .typed) :
    (if ss.isEmpty then none else some (commands catalog ss)).getD [] = commands catalog ss := by
  cases ss with
  | nil => rfl
  | cons s ss => rfl

theorem blocks_translated {catalog : Catalog} {s : Stmt .parsed} {c : Command}
    (h : Translates catalog s c) :
    List.Forall₂ (List.Forall₂ (Translates catalog)) (Stmt.nesting.blocks s)
      (Command.nesting.blocks c) := by
  obtain ⟨env, s', env', h, rfl⟩ := h
  cases h with
  | branch _ _ _ hyes hno =>
    rw [command]
    refine .cons (translates_of_block hyes) (.cons ?_ .nil)
    rw [getD_commands]
    exact translates_of_block hno
  | loop _ _ hbody =>
    rw [command]
    exact .cons (translates_of_block hbody) .nil
  | _ =>
    rw [command]
    exact .nil

theorem simulates_translates (catalog : Catalog) :
    Nesting.Simulates Stmt.nesting Command.nesting (Translates catalog) where
  blocks _ _ := blocks_translated
  local_eq := by
    rintro s c ⟨env, s', env', h, rfl⟩
    cases h <;> rfl

/-- The names of a program are declared in Java as in the source. -/
theorem declares_commands_iff {catalog : Catalog} {env env' : Env} {ss : Block .parsed}
    {ss' : Block .typed} (h : BlockTyped catalog env ss ss' env') {around own : List String}
    {x : String} :
    Command.nesting.Declares [] [] (commands catalog ss') x around own ↔
      Stmt.nesting.Declares [] [] ss x around own := by
  have hsim := simulates_translates catalog
  have hss := translates_of_block h
  exact ⟨fun hx => hx.simulate hsim.flip hss.flip, fun hx => hx.simulate hsim hss⟩

/-- No local variable is declared in the scope of another one of its name, or of the parameter of
`main`. -/
def LegalLocals (p : Program) : Prop :=
  ∀ x around own, Command.nesting.Declares [] [] p.commands x around own →
    x ∉ own ∧ x ∉ around ∧ x ≠ "args"

/-- No declaration hides a name that a block around it has declared before. -/
def NoShadowing (b : Block .parsed) : Prop :=
  ∀ x around own, Stmt.nesting.Declares [] [] b x around own → x ∉ around

theorem fresh_of_commands {catalog : Catalog} {env env' : Env} {ss : Block .parsed}
    {ss' : Block .typed} (h : BlockTyped catalog env ss ss' env') {around own : List String}
    {x : String} (hx : Command.nesting.Declares [] [] (commands catalog ss') x around own) :
    x ∉ own ∧ x ≠ "args" := by
  obtain ⟨hown, hreserved⟩ := h.fresh ((declares_commands_iff h).1 hx) nofun
  refine ⟨hown, ?_⟩
  rintro rfl
  exact hreserved (.word (by decide))

theorem legalLocals_iff {catalog : Catalog} {env env' : Env} {ss : Block .parsed}
    {ss' : Block .typed} (h : BlockTyped catalog env ss ss' env') (className : String) :
    LegalLocals ⟨className, commands catalog ss'⟩ ↔ NoShadowing ss := by
  refine ⟨fun hlegal x around own hx => ?_, fun hnone x around own hx => ?_⟩
  · exact (hlegal x around own ((declares_commands_iff h).2 hx)).2.1
  · obtain ⟨hown, hargs⟩ := fresh_of_commands h hx
    exact ⟨hown, hnone x around own ((declares_commands_iff h).1 hx), hargs⟩

/-- A compiled text reads as the commands of a typed program. -/
theorem exists_of_compile {options : Options} {source text : String}
    (hclass : IsName options.className)
    (h : Compiler.compile .standard options source = .ok text) :
    ∃ tree program env, Compiler.tree source = .ok tree ∧
      BlockTyped .standard (.ofScope .root) tree program env ∧
      ReadsAs text ⟨options.className, commands .standard program⟩ := by
  obtain ⟨program, htyped, hg⟩ := Compiler.compile_eq_ok h
  obtain ⟨tree, htree, hprogram⟩ := Compiler.typedTree_eq_ok htyped
  obtain ⟨tokens, hlex, hparse⟩ := Compiler.tree_eq_ok htree
  obtain ⟨words, hwords, hss, -⟩ := program_of_parse hlex hparse
  have hrules := (Typing.block_gives_iff .root tree).1 ⟨Typing.block_of_program hprogram, rfl⟩
  obtain ⟨⟨js, hjs, hl⟩, -, -⟩ := statements_printed .standard hss hwords named_root rfl hrules
  exact ⟨tree, program, _, htree, hrules, readsAs_of_statements hclass hg hjs (hl 2)⟩

/-- Every source that is compiled: the one program that its text reads as declares no name twice in
a block, and none that is the parameter of `main`. All of its local variables are legal if and only
if no block of the source declares a name again that a block around it has declared. -/
theorem legalLocals_iff_of_compile (options : Options) (source text : String)
    (hclass : IsName options.className)
    (h : Compiler.compile .standard options source = .ok text) :
    ∃ tree p, Compiler.tree source = .ok tree ∧ (∀ q, ReadsAs text q ↔ q = p) ∧
      (∀ x around own, Command.nesting.Declares [] [] p.commands x around own →
        x ∉ own ∧ x ≠ "args") ∧
      (LegalLocals p ↔ NoShadowing tree) := by
  obtain ⟨tree, program, env, htree, htyped, hreads⟩ := exists_of_compile hclass h
  refine ⟨tree, _, htree, fun q => ⟨fun hq => hq.unique hreads, ?_⟩, ?_, legalLocals_iff htyped _⟩
  · rintro rfl
    exact hreads
  · exact fun x around own hx => fresh_of_commands htyped hx

/-- Blocks side by side may use one name, and so may what comes after them. -/
theorem legalLocals_iff_of_siblings :
    IsName "Main" ∧ ∃ text, Compiler.compile .standard .default
        "IF TRUE THEN LET x : INTEGER = 1; ELSE LET x : STRING; END LET x : INTEGER;" = .ok text ∧
      ∃ tree p, Compiler.tree
          "IF TRUE THEN LET x : INTEGER = 1; ELSE LET x : STRING; END LET x : INTEGER;" =
            .ok tree ∧
        (∀ q, ReadsAs text q ↔ q = p) ∧
        (∀ x around own, Command.nesting.Declares [] [] p.commands x around own →
          x ∉ own ∧ x ≠ "args") ∧
        (LegalLocals p ↔ NoShadowing tree) := by
  have hclass : IsName "Main" := by decide
  have hok : (Compiler.compile .standard .default
      "IF TRUE THEN LET x : INTEGER = 1; ELSE LET x : STRING; END LET x : INTEGER;").isOk := by
    decide +kernel
  refine ⟨hclass, ?_⟩
  cases h : Compiler.compile .standard .default
      "IF TRUE THEN LET x : INTEGER = 1; ELSE LET x : STRING; END LET x : INTEGER;" with
  | ok text => exact ⟨text, rfl, legalLocals_iff_of_compile .default _ text hclass h⟩
  | error f =>
    rw [h] at hok
    cases hok

/-- An `IF` may declare a name again that its surroundings have, and then Java does not allow it. -/
theorem not_legalLocals_of_nested_declaration :
    ∃ text p, Compiler.compile .standard .default
        "LET x : INTEGER = 1; IF TRUE THEN LET x : INTEGER = 2; END" = .ok text ∧
      ReadsAs text p ∧ ¬ LegalLocals p := by
  have hok : (Compiler.compile .standard .default
      "LET x : INTEGER = 1; IF TRUE THEN LET x : INTEGER = 2; END").isOk := by decide +kernel
  cases h : Compiler.compile .standard .default
      "LET x : INTEGER = 1; IF TRUE THEN LET x : INTEGER = 2; END" with
  | error f =>
    rw [h] at hok
    cases hok
  | ok text =>
    obtain ⟨tree, program, env, htree, htyped, hreads⟩ := exists_of_compile (by decide) h
    refine ⟨text, _, rfl, hreads, fun hlegal => ?_⟩
    have hparsed : Compiler.tree "LET x : INTEGER = 1; IF TRUE THEN LET x : INTEGER = 2; END" =
        .ok [.declaration ⟨"x", ⟨4, 1⟩⟩ ⟨"INTEGER", ⟨8, 7⟩⟩
            (some (.literal (.integer "1") ⟨18, 1⟩ ())) ⟨0, 20⟩,
          .branch (.literal (.bool true) ⟨24, 4⟩ ())
            [.declaration ⟨"x", ⟨38, 1⟩⟩ ⟨"INTEGER", ⟨42, 7⟩⟩
              (some (.literal (.integer "2") ⟨52, 1⟩ ())) ⟨34, 20⟩] [] ⟨21, 37⟩] := by
      with_unfolding_all rfl
    cases htree.symm.trans hparsed
    have hinner := (legalLocals_iff htyped _).1 hlegal "x" ["x"] []
    exact hinner (.later (.inside (List.mem_cons_self ..) (.here rfl))) (List.mem_cons_self ..)

end Java

end LetLang
