/-!
Finite maps as lists of entries. Inserting under a key takes the older entry of that key out, so an
entry of the list is always current.
-/

namespace LetLang

structure Table (κ α : Type) where
  entries : List (κ × α)
  distinct : entries.Pairwise fun e e' => e.1 ≠ e'.1
  deriving Repr

namespace Table

variable {κ α : Type} [DecidableEq κ]

def empty : Table κ α := ⟨[], .nil⟩

def get? (t : Table κ α) (k : κ) : Option α := (t.entries.find? fun e => e.1 = k).map Prod.snd

def insert (t : Table κ α) (k : κ) (a : α) : Table κ α where
  entries := (k, a) :: t.entries.filter fun e => e.1 ≠ k
  distinct := by
    refine List.pairwise_cons.2 ⟨fun e he => ?_, t.distinct.filter _⟩
    simp only [List.mem_filter, decide_eq_true_eq] at he
    exact Ne.symm he.2

def values (t : Table κ α) : List α := t.entries.map Prod.snd

@[simp] theorem get?_empty (k : κ) : (empty : Table κ α).get? k = none := rfl

@[simp] theorem get?_insert_self (t : Table κ α) (k : κ) (a : α) :
    (t.insert k a).get? k = some a := by
  simp [get?, insert]

theorem get?_insert_of_ne (t : Table κ α) {k k' : κ} (a : α) (h : k' ≠ k) :
    (t.insert k a).get? k' = t.get? k' := by
  obtain ⟨es, -⟩ := t
  simp only [get?, insert, List.find?_cons, List.find?_filter]
  rw [decide_eq_false (fun he => h he.symm)]
  have hp : (fun e : κ × α => decide (decide (e.1 ≠ k) = true ∧ decide (e.1 = k') = true)) =
      fun e => decide (e.1 = k') := by
    funext e
    grind
  rw [hp]

theorem get?_insert (t : Table κ α) (k k' : κ) (a : α) :
    (t.insert k a).get? k' = if k' = k then some a else t.get? k' := by
  split
  · next h => rw [h, get?_insert_self]
  · next h => exact get?_insert_of_ne t a h

/-- A value is in the table if and only if it is found under some key. -/
theorem mem_values_iff {t : Table κ α} {a : α} : a ∈ t.values ↔ ∃ k, t.get? k = some a := by
  obtain ⟨es, hes⟩ := t
  simp only [values, get?, List.mem_map, Option.map_eq_some_iff, Prod.exists, exists_eq_right]
  constructor
  · rintro ⟨k, hk⟩
    refine ⟨k, k, List.find?_eq_some_iff_append.2 ⟨by simp, ?_⟩⟩
    obtain ⟨before, after, rfl⟩ := List.append_of_mem hk
    refine ⟨before, after, rfl, fun e he => ?_⟩
    simpa using (List.pairwise_append.1 hes).2.2 e he (k, a) (by simp)
  · rintro ⟨k, k', hk⟩
    exact ⟨k', List.mem_of_find?_eq_some hk⟩

end Table

end LetLang
