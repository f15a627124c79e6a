import LetLang.Proofs.Typing.Judgements
import Mathlib.Data.List.Induction

/-!
Catalogs and their history. Functions are defined and types are given other names, in any order.
What holds of a function or a type is what its last step says, and what a name is reserved for is
read off the functions as they are then: a function that is defined again gives up the qualifier
that it had.
-/

namespace LetLang

open Rules

/-- This stands before the first point of the host name. -/
def Signature.Qualified (s : Signature) (x : String) : Prop :=
  ∃ rest, s.host.toList = x.toList ++ '.' :: rest ∧ '.' ∉ x.toList

namespace Catalog

/-- How each type is written, before any of them is changed. -/
def defaults : Table Ty String := Ty.all.foldl (fun table t => table.insert t t.defaultHost) .empty

/-- A catalog made from the bare one step by step, with the table of how types are written. -/
inductive Built : Catalog → Table Ty String → Prop
  | bare : Built bare defaults
  | define {c : Catalog} {table : Table Ty String} (name : String) (s : Signature) :
      Built c table → Built (c.define name s) table
  | setHostType {c : Catalog} {table : Table Ty String} (t : Ty) (host : String) :
      Built c table → Built (c.setHostType t host) (table.insert t host)

theorem built_standard : Built standard defaults :=
  .define _ _ (.define _ _ (.define _ _ (.define _ _ (.define _ _ .bare))))

/-- No type is missing. -/
theorem Built.get?_eq {c : Catalog} {table : Table Ty String} (h : Built c table) (t : Ty) :
    table.get? t = some (c.hostType t) := by
  induction h with
  | bare => cases t <;> rfl
  | define _ _ _ ih => exact ih
  | setHostType t' host _ ih =>
    rw [Table.get?_insert, Catalog.setHostType]
    dsimp only
    split
    · rfl
    · exact ih

inductive Step where
  | define (name : String) (s : Signature)
  | setHostType (t : Ty) (host : String)

namespace Step

def Defines (name : String) (n : Nat) : Step → Prop
  | define x s => x = name ∧ s.params.length = n
  | setHostType _ _ => False

def Names (t : Ty) : Step → Prop
  | define _ _ => False
  | setHostType u _ => u = t

end Step

def step (c : Catalog) : Step → Catalog
  | .define name s => c.define name s
  | .setHostType t host => c.setHostType t host

/-- The catalog that these steps lead to. -/
def run (c : Catalog) (h : List Step) : Catalog := h.foldl step c

/-- The definitions of the standard catalog. -/
def builtins : List Step :=
  [.define "print" ⟨[.any], .void, "System.out.println"⟩,
    .define "abs" ⟨[.decimal], .decimal, "Math.abs"⟩,
    .define "sqrt" ⟨[.decimal], .decimal, "Math.sqrt"⟩,
    .define "min" ⟨[.decimal, .decimal], .decimal, "Math.min"⟩,
    .define "max" ⟨[.decimal, .decimal], .decimal, "Math.max"⟩]

/-- The table of how types are written, after these steps. -/
def hostNames (h : List Step) : Table Ty String :=
  h.foldl (fun table step => match step with
    | .define _ _ => table
    | .setHostType t host => table.insert t host) defaults

/-- The last step of its kind. -/
def Last (P : Step → Prop) (h : List Step) (a : Step) : Prop :=
  ∃ before after, h = before ++ a :: after ∧ P a ∧ ∀ b ∈ after, ¬ P b

variable {P : Step → Prop} {h : List Step} {a : Step} {name : String} {n : Nat} {s : Signature}

theorem run_concat (c : Catalog) (h : List Step) (a : Step) :
    c.run (h ++ [a]) = (c.run h).step a :=
  List.foldl_append ..

theorem run_builtins (h : List Step) : standard.run h = bare.run (builtins ++ h) := by
  unfold run
  rw [List.foldl_append]
  rfl

theorem not_last_nil : ¬ Last P [] a := by
  rintro ⟨before, after, he, -⟩
  simp at he

theorem last_concat_iff {b : Step} :
    Last P (h ++ [b]) a ↔ (b = a ∧ P a) ∨ (Last P h a ∧ ¬ P b) := by
  constructor
  · rintro ⟨before, after, he, ha, hafter⟩
    induction after using List.reverseRecOn with
    | nil => exact .inl ⟨List.singleton_inj.1 (List.append_inj' he rfl).2, ha⟩
    | append_singleton after c _ =>
      rw [← List.cons_append, ← List.append_assoc] at he
      obtain ⟨rfl, hc⟩ := List.append_inj' he rfl
      obtain rfl := List.singleton_inj.1 hc
      obtain ⟨hafter, hb⟩ := List.forall_mem_append.1 hafter
      exact .inr ⟨⟨before, after, rfl, ha, hafter⟩, hb b (List.mem_singleton_self b)⟩
  · rintro (⟨rfl, ha⟩ | ⟨⟨before, after, rfl, ha, hafter⟩, hb⟩)
    · exact ⟨h, [], rfl, ha, nofun⟩
    · refine ⟨before, after ++ [b], by simp, ha, List.forall_mem_append.2 ⟨hafter, ?_⟩⟩
      exact fun c hc => List.mem_singleton.1 hc ▸ hb

theorem Last.mem (hl : Last P h a) : a ∈ h := by
  obtain ⟨before, after, rfl, -⟩ := hl
  exact List.mem_append_right _ List.mem_cons_self

/-! Functions. -/

variable {c : Catalog}

theorem function?_step_of_not (ha : ¬ a.Defines name n) :
    (c.step a).function? name n = c.function? name n := by
  cases a with
  | define x r =>
    rw [step, function?_define, if_neg]
    intro hk
    exact ha ⟨hk.1.symm, hk.2.symm⟩
  | setHostType t host => rfl

theorem function?_step_of_defines (ha : a.Defines name n) :
    ∃ r, a = .define name r ∧ (c.step a).function? name n = some r := by
  cases a with
  | define x r =>
    obtain ⟨rfl, rfl⟩ := ha
    exact ⟨r, rfl, by rw [step, function?_define, if_pos ⟨rfl, rfl⟩]⟩
  | setHostType t host => cases ha

/-- A function is what its last definition says, or what it was in the beginning. -/
theorem function?_run_eq_some_iff : (c.run h).function? name n = some s ↔
    Last (Step.Defines name n) h (.define name s) ∨
      (∀ a ∈ h, ¬ a.Defines name n) ∧ c.function? name n = some s := by
  induction h using List.reverseRecOn with
  | nil => simp [run, not_last_nil]
  | append_singleton h b ih =>
    rw [run_concat, last_concat_iff, List.forall_mem_append, List.forall_mem_singleton]
    by_cases hb : b.Defines name n
    · obtain ⟨r, rfl, hr⟩ := @function?_step_of_defines _ _ _ (c.run h) hb
      rw [hr]
      simp only [hb, not_true, and_false, false_and, or_false, Option.some.injEq, Step.define.injEq,
        true_and]
      constructor
      · rintro rfl
        exact ⟨rfl, hb⟩
      · exact And.left
    · rw [function?_step_of_not hb, ih]
      have hne : ¬ (b = .define name s ∧ Step.Defines name n (.define name s)) := by
        rintro ⟨rfl, hs⟩
        exact hb hs
      simp [hb, hne]

theorem function?_run_eq_none_iff : (c.run h).function? name n = none ↔
    (∀ a ∈ h, ¬ a.Defines name n) ∧ c.function? name n = none := by
  induction h using List.reverseRecOn with
  | nil => simp [run]
  | append_singleton h b ih =>
    rw [run_concat, List.forall_mem_append, List.forall_mem_singleton]
    by_cases hb : b.Defines name n
    · obtain ⟨r, rfl, hr⟩ := @function?_step_of_defines _ _ _ (c.run h) hb
      simp [hr, hb]
    · rw [function?_step_of_not hb, ih]
      simp [hb]

theorem mem_builtins_of_function? (hs : standard.function? name n = some s) :
    .define name s ∈ builtins := by
  have hrun : standard = bare.run builtins := run_builtins []
  rw [hrun] at hs
  rcases function?_run_eq_some_iff.1 hs with hlast | ⟨-, hbare⟩
  · exact hlast.mem
  · cases hbare

/-! Types. -/

theorem built_run (h : List Step) : Built (bare.run h) (hostNames h) := by
  induction h using List.reverseRecOn with
  | nil => exact .bare
  | append_singleton h b ih =>
    rw [run_concat, hostNames, List.foldl_append, ← hostNames]
    cases b with
    | define x r => exact ih.define x r
    | setHostType t host => exact ih.setHostType t host

variable {t : Ty} {host : String}

theorem hostType_step_of_not (ha : ¬ a.Names t) : (c.step a).hostType t = c.hostType t := by
  cases a with
  | define x r => rfl
  | setHostType u host => exact if_neg (Ne.symm ha)

theorem hostType_run_of_none (hnone : ∀ a ∈ h, ¬ a.Names t) :
    (c.run h).hostType t = c.hostType t := by
  induction h using List.reverseRecOn with
  | nil => rfl
  | append_singleton h b ih =>
    obtain ⟨hnone, hb⟩ := List.forall_mem_append.1 hnone
    rw [run_concat, hostType_step_of_not (hb b (List.mem_singleton_self b)), ih hnone]

theorem hostType_run_of_last (hl : Last (Step.Names t) h (.setHostType t host)) :
    (c.run h).hostType t = host := by
  induction h using List.reverseRecOn with
  | nil => exact absurd hl not_last_nil
  | append_singleton h b ih =>
    rw [run_concat]
    rcases last_concat_iff.1 hl with ⟨rfl, -⟩ | ⟨hl, hb⟩
    · exact if_pos rfl
    · rw [hostType_step_of_not hb, ih hl]

/-! Reserved names. -/

theorem hostReserved_iff {x : String} : HostReserved c x ↔
    x ∈ reservedWords ∨ ∃ name n s, c.function? name n = some s ∧ s.Qualified x := by
  constructor
  · intro hr
    cases hr with
    | word hx => exact .inl hx
    | qualifier hs he hx => exact .inr ⟨_, _, _, hs, _, he, hx⟩
  · rintro (hx | ⟨name, n, s, hs, rest, he, hx⟩)
    · exact .word hx
    · exact .qualifier hs he hx

/-- A definition takes the place of the older one, so it frees a qualifier that no other function
has. -/
theorem isReserved_define {x : String} : (c.define name s).isReserved x ↔
    x ∈ reservedWords ∨ s.Qualified x ∨ ∃ name' n r, ¬ (name' = name ∧ n = s.params.length) ∧
      c.function? name' n = some r ∧ r.Qualified x := by
  rw [isReserved_iff, hostReserved_iff]
  refine or_congr_right ?_
  constructor
  · rintro ⟨name', n, r, hr, hx⟩
    rw [function?_define] at hr
    split at hr
    · cases hr
      exact .inl hx
    · next hk => exact .inr ⟨name', n, r, hk, hr, hx⟩
  · rintro (hx | ⟨name', n, r, hk, hr, hx⟩)
    · exact ⟨name, s.params.length, s, by rw [function?_define, if_pos ⟨rfl, rfl⟩], hx⟩
    · exact ⟨name', n, r, by rw [function?_define, if_neg hk, hr], hx⟩

/-- What a catalog tells after these steps. Where the names of types are kept as a table, none is
ever missing. -/
structure Tells (h : List Step) (c : Catalog) : Prop where
  function_some : ∀ name n s, c.function? name n = some s ↔
    Last (Step.Defines name n) h (.define name s)
  function_none : ∀ name n, c.function? name n = none ↔ ∀ a ∈ h, ¬ a.Defines name n
  params_length : ∀ name n s, c.function? name n = some s → s.params.length = n
  host_found : ∀ t, (hostNames h).get? t = some (c.hostType t)
  host_set : ∀ t host, Last (Step.Names t) h (.setHostType t host) → c.hostType t = host
  host_default : ∀ t, (∀ a ∈ h, ¬ a.Names t) → c.hostType t = t.defaultHost
  reserved : ∀ x, c.isReserved x ↔ x ∈ reservedWords ∨
    ∃ name n s, Last (Step.Defines name n) h (.define name s) ∧ s.Qualified x
  redefined : ∀ name s x, (c.define name s).isReserved x ↔ x ∈ reservedWords ∨ s.Qualified x ∨
    ∃ name' n r, ¬ (name' = name ∧ n = s.params.length) ∧
      Last (Step.Defines name' n) h (.define name' r) ∧ r.Qualified x

theorem tells_bare_run (h : List Step) : Tells h (bare.run h) := by
  have hbare : ∀ name n, bare.function? name n = none := fun _ _ => rfl
  have hsome : ∀ name n s, (bare.run h).function? name n = some s ↔
      Last (Step.Defines name n) h (.define name s) := by
    intro name n s
    rw [function?_run_eq_some_iff, hbare]
    simp
  constructor
  · exact hsome
  · intro name n
    rw [function?_run_eq_none_iff, hbare]
    simp
  · intro name n s hs
    exact (bare.run h).arity_eq hs
  · exact (built_run h).get?_eq
  · intro t host hl
    exact hostType_run_of_last hl
  · intro t hnone
    exact hostType_run_of_none hnone
  · intro x
    simp only [isReserved_iff, hostReserved_iff, hsome]
  · intro name s x
    simp only [isReserved_define, hsome]

/-- Every run of definitions and of names for types, from the catalog without functions on, or from
the standard one, which begins with its own definitions. -/
theorem tells_run (h : List Step) :
    Tells h (bare.run h) ∧ Tells (builtins ++ h) (standard.run h) := by
  rw [run_builtins]
  exact ⟨tells_bare_run h, tells_bare_run (builtins ++ h)⟩

end Catalog

end LetLang
