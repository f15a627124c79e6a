import LetLang.Text.Digits

/-!
The longest start of a text whose characters all pass a test, and what is left of the text: the rest
is empty or starts with a character that fails.
-/

namespace LetLang.Text

theorem head?_dropWhile_eq_false {p : Char → Bool} {cs : List Char} :
    ∀ c ∈ (cs.dropWhile p).head?, p c = false := by
  intro c hc
  have := List.head?_dropWhile_not p cs
  rwa [hc] at this

theorem eq_nil_of_all {p : Char → Bool} {rest more after : List Char}
    (hhead : ∀ c ∈ rest.head?, p c = false) (hrest : rest = more ++ after)
    (hall : ∀ c ∈ more, p c = true) : more = [] := by
  cases more with
  | nil => rfl
  | cons c more =>
    have := hhead c (by simp [hrest])
    rw [hall c (by simp)] at this
    cases this

theorem takeWhile_append {p : Char → Bool} {xs ys : List Char} (hall : ∀ c ∈ xs, p c = true)
    (hhead : ∀ c ∈ ys.head?, p c = false) : (xs ++ ys).takeWhile p = xs := by
  rw [List.takeWhile_append_of_pos hall]
  cases ys with
  | nil => simp
  | cons c ys => simp [hhead c (by simp)]

theorem dropWhile_append {p : Char → Bool} {xs ys : List Char} (hall : ∀ c ∈ xs, p c = true)
    (hhead : ∀ c ∈ ys.head?, p c = false) : (xs ++ ys).dropWhile p = ys := by
  rw [List.dropWhile_append_of_pos hall]
  cases ys with
  | nil => simp
  | cons c ys => simp [hhead c (by simp)]

/-- Texts cut where a test fails first are cut in one way. -/
theorem append_injective {p : Char → Bool} {xs xs' ys ys' : List Char}
    (hall : ∀ c ∈ xs, p c = true) (hall' : ∀ c ∈ xs', p c = true)
    (hhead : ∀ c ∈ ys.head?, p c = false) (hhead' : ∀ c ∈ ys'.head?, p c = false)
    (he : xs ++ ys = xs' ++ ys') : xs = xs' ∧ ys = ys' := by
  obtain rfl : xs = xs' := by
    rw [← takeWhile_append hall hhead, he, takeWhile_append hall' hhead']
  exact ⟨rfl, List.append_cancel_left he⟩

/-! A text cut at the first place where a character stands. -/

variable {a : Char} {xs ys : List Char}

theorem forall_ne (h : a ∉ xs) : ∀ c ∈ xs, decide (c ≠ a) = true := by
  rintro c hc
  rw [decide_eq_true_eq]
  rintro rfl
  exact h hc

theorem takeWhile_ne (h : a ∉ xs) : (xs ++ a :: ys).takeWhile (· ≠ a) = xs :=
  takeWhile_append (forall_ne h) (by simp)

theorem dropWhile_ne (h : a ∉ xs) : (xs ++ a :: ys).dropWhile (· ≠ a) = a :: ys :=
  dropWhile_append (forall_ne h) (by simp)

theorem dropWhile_ne_nil (h : a ∉ xs) : xs.dropWhile (· ≠ a) = [] := by
  rw [← List.append_nil xs, List.dropWhile_append_of_pos (forall_ne h)]
  rfl

theorem takeWhile_ne_nil (h : a ∉ xs) : xs.takeWhile (· ≠ a) = xs := by
  have : (xs ++ []).takeWhile (· ≠ a) = xs := takeWhile_append (forall_ne h) (by simp)
  rwa [List.append_nil] at this

theorem not_mem_takeWhile_ne (xs : List Char) (a : Char) : a ∉ xs.takeWhile (· ≠ a) := by
  intro h
  have := List.all_eq_true.1 List.all_takeWhile _ h
  simp at this

/-- Texts cut at that place are cut in one way. -/
theorem append_cons_injective {xs' ys' : List Char} (h : a ∉ xs) (h' : a ∉ xs')
    (he : xs ++ a :: ys = xs' ++ a :: ys') : xs = xs' ∧ ys = ys' := by
  obtain rfl : xs = xs' := by rw [← takeWhile_ne h, he, takeWhile_ne h']
  exact ⟨rfl, (List.cons.inj (List.append_cancel_left he)).2⟩

theorem isDigits_cons {cs : List Char} (h : isDigits cs) :
    ∃ d ds, cs = d :: ds ∧ d.isDigit = true := by
  cases cs with
  | nil => simp [isDigits] at h
  | cons d ds => exact ⟨d, ds, rfl, by simp_all [isDigits]⟩

theorem isDigit_of_mem {cs : List Char} (h : isDigits cs) {c : Char} (hc : c ∈ cs) :
    c.isDigit = true := by
  simp only [isDigits, Bool.and_eq_true, List.all_eq_true] at h
  exact h.2 c hc

theorem point_not_mem (h : isDigits xs) : '.' ∉ xs :=
  fun hc => absurd (isDigit_of_mem h hc) (by decide)

theorem isDigit_of_isAlpha {c : Char} (h : c.isAlpha = true) : c.isDigit = false := by
  rw [Bool.eq_false_iff]
  intro hd
  have hle : c.val ≤ '9'.val := of_decide_eq_true (Bool.and_eq_true_iff.1 hd).2
  rcases Bool.or_eq_true_iff.1 h with hu | hl
  · have hge : 'A'.val ≤ c.val := (of_decide_eq_true hu).1
    exact absurd (UInt32.le_trans hge hle) (by decide)
  · have hge : 'a'.val ≤ c.val := of_decide_eq_true (Bool.and_eq_true_iff.1 hl).1
    exact absurd (UInt32.le_trans hge hle) (by decide)

end LetLang.Text
