import LetLang.Scope
import Mathlib.Data.List.Induction

/-!
Scopes and their history. Blocks are entered and left and names are defined, in any order, from a
fresh root on. A name stands for its last definition in the innermost of the open blocks that have
defined it, and to leave a block undoes whatever was done since it was entered.
-/

namespace LetLang.Scope

inductive Step where
  | enter
  | leave
  | define (name : String) (t : Ty)

def step (s : Scope) : Step → Scope
  | .enter => s.enter
  | .leave => s.leave
  | .define x t => s.define x t

/-- The scope that these steps lead to. -/
def run (h : List Step) : Scope := h.foldl step root

/-- How many blocks are open inside of the root. The root itself is never left. -/
def openBlocks (h : List Step) : Nat :=
  h.foldl (fun n step => match step with
    | .enter => n + 1
    | .leave => n - 1
    | .define _ _ => n) 0

/-- The block at depth `d` is open, and goes by this definition of `x`: the definition was made at
this depth, the block has not been left since, and it has not defined `x` again. -/
def Binds (h : List Step) (d : Nat) (x : String) (t : Ty) : Prop :=
  ∃ before after, h = before ++ .define x t :: after ∧ openBlocks before = d ∧
    (∀ mid rest, after = mid ++ rest → d ≤ openBlocks (before ++ .define x t :: mid)) ∧
    ∀ mid rest u, after = mid ++ .define x u :: rest → openBlocks (before ++ .define x t :: mid) ≠ d

/-- After `before` a block is entered that stays open during `within`, and no block inside of it is
open in the end. -/
structure Visits (before within : List Step) : Prop where
  stays : ∀ mid rest, within = mid ++ rest → openBlocks before < openBlocks (before ++ .enter :: mid)
  settled : openBlocks (before ++ .enter :: within) = openBlocks before + 1

variable {h before within : List Step} {d : Nat} {x : String} {t : Ty}

theorem run_concat (h : List Step) (s : Step) : run (h ++ [s]) = (run h).step s :=
  List.foldl_append ..

@[simp] theorem openBlocks_enter : openBlocks (h ++ [.enter]) = openBlocks h + 1 :=
  List.foldl_append ..

@[simp] theorem openBlocks_leave : openBlocks (h ++ [.leave]) = openBlocks h - 1 :=
  List.foldl_append ..

@[simp] theorem openBlocks_define : openBlocks (h ++ [.define x t]) = openBlocks h :=
  List.foldl_append ..

theorem depth_run (h : List Step) : (run h).depth = openBlocks h := by
  induction h using List.reverseRecOn with
  | nil => rfl
  | append_singleton h s ih =>
    rw [run_concat]
    cases s with
    | enter => rw [openBlocks_enter, ← ih]; rfl
    | leave =>
      rw [openBlocks_leave, ← ih, step, leave]
      split
      · next houter => simp [depth, houter]
      · next houter => simp [depth, houter]
    | define y u => rw [openBlocks_define, ← ih]; rfl

/-! What one more step changes. -/

theorem not_binds_nil : ¬ Binds [] d x t := by
  rintro ⟨before, after, h, -⟩
  simp at h

theorem binds_concat_iff {s : Step} : Binds (h ++ [s]) d x t ↔
    (s = .define x t ∧ openBlocks h = d) ∨
      (Binds h d x t ∧ d ≤ openBlocks (h ++ [s]) ∧ ∀ u, s = .define x u → openBlocks h ≠ d) := by
  constructor
  · rintro ⟨before, after, he, hd, hstays, hlast⟩
    induction after using List.reverseRecOn with
    | nil =>
      obtain ⟨rfl, hs⟩ := List.append_inj' he rfl
      exact .inl ⟨List.singleton_inj.1 hs, hd⟩
    | append_singleton after s' _ =>
      rw [← List.cons_append, ← List.append_assoc] at he
      obtain ⟨rfl, hs⟩ := List.append_inj' he rfl
      obtain rfl := List.singleton_inj.1 hs
      refine .inr ⟨⟨before, after, rfl, hd, ?_, ?_⟩, ?_, ?_⟩
      · intro mid rest hsplit
        exact hstays mid (rest ++ [s]) (by rw [hsplit, List.append_assoc])
      · intro mid rest u hsplit
        exact hlast mid (rest ++ [s]) u (by rw [hsplit]; simp)
      · simpa using hstays (after ++ [s]) [] (List.append_nil _).symm
      · rintro u rfl
        exact hlast after [] u rfl
  · rintro (⟨rfl, hd⟩ | ⟨⟨before, after, rfl, hd, hstays, hlast⟩, hle, hnew⟩)
    · refine ⟨h, [], rfl, hd, ?_, ?_⟩
      · intro mid rest hsplit
        obtain ⟨rfl, -⟩ := List.append_eq_nil_iff.1 hsplit.symm
        rw [openBlocks_define]
        exact Nat.le_of_eq hd.symm
      · intro mid rest u hsplit
        simp at hsplit
    · refine ⟨before, after ++ [s], by simp, hd, ?_, ?_⟩
      · intro mid rest hsplit
        induction rest using List.reverseRecOn with
        | nil =>
          rw [List.append_nil] at hsplit
          rw [← hsplit]
          simpa using hle
        | append_singleton rest s' _ =>
          rw [← List.append_assoc] at hsplit
          exact hstays mid rest (List.append_inj' hsplit rfl).1
      · intro mid rest u hsplit
        induction rest using List.reverseRecOn with
        | nil =>
          obtain ⟨rfl, hs⟩ := List.append_inj' hsplit rfl
          exact hnew u (List.singleton_inj.1 hs)
        | append_singleton rest s' _ =>
          rw [← List.cons_append, ← List.append_assoc] at hsplit
          exact hlast mid rest u (List.append_inj' hsplit rfl).1

theorem Binds.le_openBlocks (hb : Binds h d x t) : d ≤ openBlocks h := by
  obtain ⟨before, after, rfl, -, hstays, -⟩ := hb
  exact hstays after [] (List.append_nil _).symm

/-! The bindings of a scope, block by block. -/

/-- What the open block at depth `d` has bound a name to. -/
def bound? (s : Scope) (d : Nat) (x : String) : Option Ty :=
  (s.current :: s.outer).reverse[d]?.bind (·.get? x)

theorem bound?_eq (s : Scope) (d : Nat) (x : String) : s.bound? d x =
    if d = s.depth then s.local? x else s.outer.reverse[d]?.bind (·.get? x) := by
  unfold bound? depth
  rw [List.reverse_cons, List.getElem?_append, List.length_reverse]
  split
  · next hlt => rw [if_neg (Nat.ne_of_lt hlt)]
  · next hge =>
    split
    · next he => simp [he, local?]
    · next hne =>
      have hout : s.outer.length + 1 ≤ d := by omega
      rw [List.getElem?_eq_none (by simp; omega), List.getElem?_eq_none (by simp; omega)]

theorem bound?_depth (s : Scope) (x : String) : s.bound? s.depth x = s.local? x := by
  rw [bound?_eq, if_pos rfl]

theorem bound?_of_lt {s : Scope} (hd : s.depth < d) : s.bound? d x = none := by
  rw [bound?_eq, if_neg (Nat.ne_of_gt hd),
    List.getElem?_eq_none (by simpa [depth] using Nat.le_of_lt hd), Option.bind_none]

theorem bound?_root : root.bound? d x = none := by
  rw [bound?_eq]
  split <;> rfl

theorem bound?_enter (s : Scope) : s.enter.bound? d x = s.bound? d x := by
  rw [bound?_eq]
  split
  · next hd => rw [bound?_of_lt (hd ▸ Nat.lt_succ_self _)]; rfl
  · rfl

theorem bound?_leave (s : Scope) :
    s.leave.bound? d x = if d ≤ s.depth - 1 then s.bound? d x else none := by
  obtain ⟨current, outer⟩ := s
  cases outer with
  | nil =>
    split
    · rfl
    · next hd => exact bound?_of_lt (Nat.lt_of_not_le hd)
  | cons table outer =>
    split
    · next hd =>
      have hne : d ≠ (⟨current, table :: outer⟩ : Scope).depth :=
        Nat.ne_of_lt (Nat.lt_succ_of_le hd)
      rw [bound?_eq ⟨current, table :: outer⟩, if_neg hne]
      rfl
    · next hd => exact bound?_of_lt (Nat.lt_of_not_le hd)

theorem bound?_define (s : Scope) (y : String) (u : Ty) : (s.define y u).bound? d x =
    if d = s.depth ∧ x = y then some u else s.bound? d x := by
  rw [bound?_eq, bound?_eq s, local?, define, Table.get?_insert]
  grind [local?, depth]

/-- A name stands for its binding in the innermost block that has one. -/
theorem innermost (s : Scope) (x : String) :
    (∃ d t, s.lookup? x = some t ∧ s.bound? d x = some t ∧ ∀ e, d < e → s.bound? e x = none) ∨
      (s.lookup? x = none ∧ ∀ d, s.bound? d x = none) := by
  obtain ⟨current, outer⟩ := s
  induction outer generalizing current with
  | nil =>
    have hlookup : (⟨current, []⟩ : Scope).lookup? x = current.get? x := by
      rw [lookup?_eq, local?, List.findSome?_nil, Option.or_none]
    cases hx : current.get? x with
    | some t =>
      refine .inl ⟨0, t, hlookup.trans hx, ?_, fun e he => bound?_of_lt he⟩
      exact (bound?_depth ⟨current, []⟩ x).trans hx
    | none =>
      refine .inr ⟨hlookup.trans hx, fun d => ?_⟩
      rw [bound?_eq]
      split
      · exact hx
      · rfl
  | cons table outer ih =>
    have hlookup : (⟨current, table :: outer⟩ : Scope).lookup? x =
        (current.get? x).or ((⟨table, outer⟩ : Scope).lookup? x) := lookup?_eq ..
    cases hx : current.get? x with
    | some t =>
      refine .inl ⟨outer.length + 1, t, ?_, ?_, fun e he => bound?_of_lt he⟩
      · rw [hlookup, hx, Option.some_or]
      · exact (bound?_depth ⟨current, table :: outer⟩ x).trans hx
    | none =>
      -- the current block has nothing, so all is as in the block around it
      have hbound (d : Nat) : (⟨current, table :: outer⟩ : Scope).bound? d x =
          (⟨table, outer⟩ : Scope).bound? d x := by
        rw [bound?_eq]
        split
        · next hd => exact hx.trans (bound?_of_lt (hd ▸ Nat.lt_succ_self _)).symm
        · rfl
      rw [hlookup, hx, Option.none_or]
      simp only [hbound]
      exact ih table

theorem lookup?_eq_some_iff (s : Scope) : s.lookup? x = some t ↔
    ∃ d, s.bound? d x = some t ∧ ∀ e, d < e → s.bound? e x = none := by
  rcases s.innermost x with ⟨d, u, hlookup, hbound, hinner⟩ | ⟨hlookup, hbound⟩
  · rw [hlookup]
    constructor
    · intro ht
      exact ⟨d, hbound.trans ht, hinner⟩
    · rintro ⟨e, he, hbeyond⟩
      rcases Nat.lt_trichotomy d e with hlt | rfl | hlt
      · simp [hinner e hlt] at he
      · rw [← hbound, he]
      · simp [hbeyond d hlt] at hbound
  · simp [hlookup, hbound]

theorem lookup?_eq_none_iff (s : Scope) : s.lookup? x = none ↔ ∀ d, s.bound? d x = none := by
  rcases s.innermost x with ⟨d, u, hlookup, hbound, -⟩ | ⟨hlookup, hbound⟩
  · rw [hlookup]
    refine ⟨nofun, fun h => ?_⟩
    rw [h d] at hbound
    cases hbound
  · simp [hlookup, hbound]

/-! Whole runs. -/

/-- The blocks of a scope have the bindings that its history says. -/
theorem bound?_run (h : List Step) (d : Nat) (x : String) (t : Ty) :
    (run h).bound? d x = some t ↔ Binds h d x t := by
  induction h using List.reverseRecOn with
  | nil =>
    rw [run, List.foldl_nil, bound?_root]
    exact ⟨nofun, fun hb => absurd hb not_binds_nil⟩
  | append_singleton h s ih =>
    rw [run_concat, binds_concat_iff]
    cases s with
    | enter =>
      rw [step, bound?_enter, ih, openBlocks_enter]
      constructor
      · intro hb
        exact .inr ⟨hb, Nat.le_succ_of_le hb.le_openBlocks, nofun⟩
      · rintro (⟨⟨⟩, -⟩ | ⟨hb, -⟩)
        exact hb
    | leave =>
      rw [step, bound?_leave, depth_run, openBlocks_leave]
      split
      · next hd => simp [ih, hd]
      · next hd => simp [hd]
    | define y u =>
      rw [step, bound?_define, depth_run, openBlocks_define]
      split
      · next hd =>
        obtain ⟨rfl, rfl⟩ := hd
        simp [eq_comm]
      · next hd =>
        rw [ih]
        constructor
        · intro hb
          refine .inr ⟨hb, hb.le_openBlocks, ?_⟩
          rintro _ ⟨⟩ he
          exact hd ⟨he.symm, rfl⟩
        · rintro (⟨⟨⟩, he⟩ | ⟨hb, -⟩)
          · exact absurd ⟨he.symm, rfl⟩ hd
          · exact hb

/-- While a block stays open, the blocks around it are as they were when it was entered. -/
theorem run_within (before : List Step) {within : List Step}
    (hstays : ∀ mid rest, within = mid ++ rest →
      openBlocks before < openBlocks (before ++ .enter :: mid)) :
    ∃ current inner, run (before ++ .enter :: within) =
      ⟨current, inner ++ (run before).current :: (run before).outer⟩ := by
  induction within using List.reverseRecOn with
  | nil =>
    refine ⟨.empty, [], ?_⟩
    rw [run_concat]
    rfl
  | append_singleton within s ih =>
    obtain ⟨current, inner, hrun⟩ := ih fun mid rest hsplit =>
      hstays mid (rest ++ [s]) (by rw [hsplit, List.append_assoc])
    have hopen := hstays (within ++ [s]) [] (List.append_nil _).symm
    rw [← List.cons_append, ← List.append_assoc, ← depth_run, ← depth_run] at hopen
    rw [← List.cons_append, ← List.append_assoc]
    rw [run_concat, hrun] at hopen ⊢
    cases s with
    | enter => exact ⟨.empty, current :: inner, rfl⟩
    | leave =>
      cases inner with
      | nil => exact absurd hopen (Nat.lt_irrefl _)
      | cons table inner => exact ⟨table, inner, rfl⟩
    | define y u => exact ⟨current.insert y u, inner, rfl⟩

/-- Whatever is done in a block, it is undone when the block is left. -/
theorem leave_run_of_visits (hv : Visits before within) :
    (run (before ++ .enter :: within)).leave = run before := by
  obtain ⟨current, inner, hrun⟩ := run_within before hv.stays
  have hdepth := hv.settled
  rw [← depth_run, ← depth_run, hrun] at hdepth
  have hinner : inner = [] := by simpa [depth] using hdepth
  rw [hrun, hinner]
  rfl

/-- What a scope answers after these steps. A definition gives back what `local?` had for its name
before, so this is also the answer of a definition. -/
structure Recalls (h : List Step) (s : Scope) : Prop where
  depth : s.depth = openBlocks h
  lookup_some : ∀ x t, s.lookup? x = some t ↔
    ∃ d, Binds h d x t ∧ ∀ e u, d < e → ¬ Binds h e x u
  lookup_none : ∀ x, s.lookup? x = none ↔ ∀ d t, ¬ Binds h d x t
  local_some : ∀ x t, s.local? x = some t ↔ Binds h (openBlocks h) x t
  define_lookup : ∀ x t y, y ≠ x → (s.define x t).lookup? y = s.lookup? y
  define_outer : ∀ x t, (s.define x t).outer = s.outer
  leave : ∀ before within, h = before ++ .enter :: within → Visits before within →
    s.leave = run before

/-- Every run of scopes, of any length. -/
theorem recalls_run (h : List Step) : Recalls h (run h) where
  depth := depth_run h
  lookup_some x t := by
    simp only [lookup?_eq_some_iff, bound?_run, Option.eq_none_iff_forall_not_mem, Option.mem_def]
    refine exists_congr fun d => and_congr_right fun _ => ?_
    exact ⟨fun hnone e u he => hnone e he u, fun hnone e he u => hnone e u he⟩
  lookup_none x := by
    rw [lookup?_eq_none_iff]
    simp only [Option.eq_none_iff_forall_not_mem, Option.mem_def, bound?_run]
  local_some x t := by rw [← bound?_depth, depth_run, bound?_run]
  define_lookup x t y hy := by rw [lookup?_define, if_neg hy]
  define_outer _ _ := rfl
  leave before within he hv := by rw [he, leave_run_of_visits hv]

/-- A block that is entered again starts empty. -/
example : (run [.define "x" .integer, .enter, .define "x" .string, .leave, .enter]).lookup? "x" =
    some .integer := by decide

end LetLang.Scope
