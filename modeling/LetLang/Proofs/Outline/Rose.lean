/-!
Trees listed from the top down, each node in a row with its level. The levels are enough to find the
trees again: the parts of a node are what follows it until a row of its own level or above.
-/

namespace LetLang

/-- A tree with any number of parts at each node. -/
inductive Rose (α : Type) where
  | node (head : α) (parts : List (Rose α))

namespace Rose

variable {α : Type}

mutual

/-- The nodes from the top down, each one level deeper than the node that it is a part of. -/
def rows (level : Nat) : Rose α → List (Nat × α)
  | node head parts => (level, head) :: rowsAll (level + 1) parts

def rowsAll (level : Nat) : List (Rose α) → List (Nat × α)
  | [] => []
  | t :: ts => t.rows level ++ rowsAll level ts

end

@[simp] theorem rows_node {level : Nat} {head : α} {parts : List (Rose α)} :
    (node head parts).rows level = (level, head) :: rowsAll (level + 1) parts := by
  rw [rows]

@[simp] theorem rowsAll_nil {level : Nat} : rowsAll level ([] : List (Rose α)) = [] := by
  rw [rowsAll]

@[simp] theorem rowsAll_cons {level : Nat} {t : Rose α} {ts : List (Rose α)} :
    rowsAll level (t :: ts) = t.rows level ++ rowsAll level ts := by
  rw [rowsAll]

/-- What follows the rows of a node does not go on at the level of its parts. -/
def EndsAt (level : Nat) (rows : List (Nat × α)) : Prop := ∀ row ∈ rows.head?, row.1 < level

theorem endsAt_rowsAll {level : Nat} {rest : List (Nat × α)} (hrest : EndsAt level rest)
    (ts : List (Rose α)) : EndsAt (level + 1) (rowsAll level ts ++ rest) := by
  cases ts with
  | nil => exact fun row hrow => Nat.lt_succ_of_lt (hrest row hrow)
  | cons t ts =>
    obtain ⟨head, parts⟩ := t
    simp [EndsAt]

mutual

/-- A tree is known from its rows, whatever comes behind them. -/
theorem rows_append_injective {level : Nat} {rest rest' : List (Nat × α)} :
    {t t' : Rose α} → EndsAt (level + 1) rest → EndsAt (level + 1) rest' →
    t.rows level ++ rest = t'.rows level ++ rest' → t = t' ∧ rest = rest'
  | .node _ _, .node _ _, hrest, hrest', h => by
    simp only [rows_node, List.cons_append, List.cons.injEq, Prod.mk.injEq, true_and] at h
    obtain ⟨rfl, h⟩ := h
    obtain ⟨rfl, hlater⟩ := rowsAll_append_injective hrest hrest' h
    exact ⟨rfl, hlater⟩

theorem rowsAll_append_injective {level : Nat} {rest rest' : List (Nat × α)} :
    {ts ts' : List (Rose α)} → EndsAt level rest → EndsAt level rest' →
    rowsAll level ts ++ rest = rowsAll level ts' ++ rest' → ts = ts' ∧ rest = rest'
  | [], [], _, _, h => ⟨rfl, h⟩
  | [], .node _ _ :: _, hrest, _, h => by
    -- what follows would start with a row of this level
    rw [rowsAll_nil, List.nil_append] at h
    rw [h] at hrest
    exact absurd (hrest _ rfl) (Nat.lt_irrefl level)
  | .node _ _ :: _, [], _, hrest', h => by
    rw [rowsAll_nil, List.nil_append] at h
    rw [← h] at hrest'
    exact absurd (hrest' _ rfl) (Nat.lt_irrefl level)
  | t :: ts, t' :: ts', hrest, hrest', h => by
    rw [rowsAll_cons, rowsAll_cons, List.append_assoc, List.append_assoc] at h
    obtain ⟨rfl, hlater⟩ := rows_append_injective (endsAt_rowsAll hrest ts)
      (endsAt_rowsAll hrest' ts') h
    obtain ⟨rfl, hlast⟩ := rowsAll_append_injective hrest hrest' hlater
    exact ⟨rfl, hlast⟩

end

theorem rowsAll_injective {level : Nat} {ts ts' : List (Rose α)}
    (h : rowsAll level ts = rowsAll level ts') : ts = ts' := by
  have hnil : EndsAt level ([] : List (Nat × α)) := nofun
  exact (rowsAll_append_injective hnil hnil (by rw [h])).1

mutual

/-- All heads of a tree have the property. -/
def Every (P : α → Prop) : Rose α → Prop
  | node head parts => P head ∧ EveryAll P parts

def EveryAll (P : α → Prop) : List (Rose α) → Prop
  | [] => True
  | t :: ts => t.Every P ∧ EveryAll P ts

end

section

variable {P : α → Prop}

@[simp] theorem every_node {head : α} {parts : List (Rose α)} :
    (node head parts).Every P ↔ P head ∧ EveryAll P parts := by
  rw [Every]

@[simp] theorem everyAll_nil : EveryAll P [] := by
  rw [EveryAll]
  trivial

@[simp] theorem everyAll_cons {t : Rose α} {ts : List (Rose α)} :
    EveryAll P (t :: ts) ↔ t.Every P ∧ EveryAll P ts := by
  rw [EveryAll]

mutual

theorem Every.rows {level : Nat} : {t : Rose α} → t.Every P → ∀ row ∈ t.rows level, P row.2
  | .node _ _, h => by
    rw [every_node] at h
    rw [rows_node]
    exact List.forall_mem_cons.2 ⟨h.1, h.2.rows⟩

theorem EveryAll.rows {level : Nat} :
    {ts : List (Rose α)} → EveryAll P ts → ∀ row ∈ rowsAll level ts, P row.2
  | [], _ => nofun
  | _ :: _, h => by
    rw [everyAll_cons] at h
    rw [rowsAll_cons]
    exact List.forall_mem_append.2 ⟨h.1.rows, h.2.rows⟩

end

end

end Rose

end LetLang
