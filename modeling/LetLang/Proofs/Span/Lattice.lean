import LetLang.Span
import Mathlib.Order.Lattice
import Mathlib.Order.Bounds.Basic

/-!
Spans ordered by their ends: one is within another if both its ends are. Without limits any two spans
have a least span that contains them, and joining is the same operation cut off where its result no
longer fits. So the laws of a lattice hold of joining too, failures included.
-/

namespace LetLang.Span

variable {a b c s t : Span} {x y : Int}

instance : SemilatticeSup Span where
  le a b := b.lo ≤ a.lo ∧ a.hi ≤ b.hi
  le_refl _ := ⟨Nat.le_refl _, Nat.le_refl _⟩
  le_trans _ _ _ h h' := ⟨Nat.le_trans h'.1 h.1, Nat.le_trans h.2 h'.2⟩
  le_antisymm a b h h' := by
    obtain ⟨lo, len⟩ := a
    obtain ⟨lo', len'⟩ := b
    obtain rfl : lo = lo' := Nat.le_antisymm h'.1 h.1
    simpa [hi] using Nat.le_antisymm h.2 h'.2
  sup a b := ⟨min a.lo b.lo, max a.hi b.hi - min a.lo b.lo⟩
  le_sup_left a b := by
    constructor <;> simp only [hi] <;> omega
  le_sup_right a b := by
    constructor <;> simp only [hi] <;> omega
  sup_le a b c h h' := by
    obtain ⟨hlo, hhi⟩ := h
    obtain ⟨hlo', hhi'⟩ := h'
    constructor <;> simp only [hi] at hhi hhi' ⊢ <;> omega

theorem sup_lo (a b : Span) : (a ⊔ b).lo = min a.lo b.lo := rfl

theorem sup_hi (a b : Span) : (a ⊔ b).hi = max a.hi b.hi := by
  change min a.lo b.lo + (max a.hi b.hi - min a.lo b.lo) = _
  simp only [hi]
  omega

theorem len_eq (s : Span) : s.len = s.hi - s.lo := (Nat.add_sub_cancel_left ..).symm

theorem Fits.of_le (h : a ≤ b) (hb : b.Fits) : a.Fits := by
  obtain ⟨hlo, hhi⟩ := h
  obtain ⟨hlen, hmax⟩ := hb
  rw [len_eq] at hlen
  refine ⟨?_, Nat.le_trans hhi hmax⟩
  rw [len_eq]
  omega

/-- What lies between the ends of two spans that fit is in range. -/
theorem fits_sup_iff (ha : a.Fits) (hb : b.Fits) :
    (a ⊔ b).Fits ↔ max a.hi b.hi - min a.lo b.lo ≤ maxLength := by
  rw [Fits, len_eq, sup_hi, sup_lo]
  exact and_iff_left (Nat.max_le.2 ⟨ha.2, hb.2⟩)

theorem join?_eq_some_iff : a.join? b = some s ↔ s = a ⊔ b ∧ (a ⊔ b).Fits := by
  rw [join?, ofBounds?_eq_some_iff]
  constructor
  · rintro ⟨hlo, hhi, hfits⟩
    obtain rfl : s = a ⊔ b := by
      apply le_antisymm <;> constructor <;> simp only [sup_lo, sup_hi] <;> omega
    exact ⟨rfl, hfits⟩
  · rintro ⟨rfl, hfits⟩
    exact ⟨sup_lo a b, sup_hi a b, hfits⟩

/-- Joining is the join of the lattice, where that fits. -/
theorem join?_eq (a b : Span) : a.join? b = if (a ⊔ b).Fits then some (a ⊔ b) else none := by
  ext s
  rw [join?_eq_some_iff]
  split <;> simp [*, eq_comm]

theorem join?_eq_none_iff (ha : a.Fits) (hb : b.Fits) :
    a.join? b = none ↔ maxLength < max a.hi b.hi - min a.lo b.lo := by
  rw [join?_eq, ← Nat.not_le, ← fits_sup_iff ha hb]
  simp

theorem join?_comm (a b : Span) : a.join? b = b.join? a := by
  rw [join?_eq, join?_eq, sup_comm]

theorem join?_self (ha : a.Fits) : a.join? a = some a := by
  rw [join?_eq, sup_idem, if_pos ha]

/-- If two of three spans are too far apart, so are all three. -/
theorem join?_bind_join? (a b c : Span) :
    (a.join? b).bind (·.join? c) = if (a ⊔ b ⊔ c).Fits then some (a ⊔ b ⊔ c) else none := by
  rw [join?_eq a b]
  split
  · exact join?_eq _ c
  · next h => rw [if_neg fun h' => h (h'.of_le le_sup_left), Option.bind_none]

theorem join?_assoc (a b c : Span) :
    (a.join? b).bind (·.join? c) = (b.join? c).bind (a.join? ·) := by
  have hswap : (fun s => a.join? s) = (·.join? a) := funext (join?_comm a)
  rw [hswap, join?_bind_join?, join?_bind_join?, sup_assoc, sup_comm a]

theorem shift?_eq_some_iff (hs : s.Fits) :
    s.shift? x y = some t ↔ (t.lo : Int) = s.lo + x ∧ (t.hi : Int) = s.hi + y ∧ t.Fits := by
  rw [shift?]
  by_cases h : 0 ≤ (s.lo : Int) + x ∧ 0 ≤ (s.hi : Int) + y
  · rw [if_pos ⟨hs, h⟩, ofBounds?_eq_some_iff]
    exact and_congr (by omega) (and_congr (by omega) Iff.rfl)
  · rw [if_neg fun h' => h h'.2]
    constructor
    · rintro ⟨⟩
    · rintro ⟨hlo, hhi, -⟩
      omega

theorem shift?_eq_none_iff (hs : s.Fits) :
    s.shift? x y = none ↔
      s.lo + x < 0 ∨ s.hi + y < 0 ∨ maxOffset < s.lo + x ∨ maxOffset < s.hi + y ∨
        s.hi + y < s.lo + x ∨ maxLength < s.hi + y - (s.lo + x) := by
  rw [Option.eq_none_iff_forall_ne_some]
  constructor
  · intro h
    by_contra hrange
    simp only [not_or, Int.not_lt] at hrange
    let t : Span := ⟨(s.lo + x).toNat, (s.hi + y - (s.lo + x)).toNat⟩
    have ht : (t.hi : Int) = s.hi + y := by
      change (((s.lo + x).toNat + (s.hi + y - (s.lo + x)).toNat : Nat) : Int) = _
      omega
    refine h t ((shift?_eq_some_iff hs).2 ⟨Int.toNat_of_nonneg (by omega), ht, ?_, by omega⟩)
    exact Int.toNat_le.2 (by omega)
  · intro h t ht
    obtain ⟨hlo, hhi, hlen, hmax⟩ := (shift?_eq_some_iff hs).1 ht
    rw [len_eq] at hlen
    have : t.lo ≤ t.hi := Nat.le_add_right _ _
    omega

/-- Moved back by the same distances, the ends are where they were. -/
theorem shift?_neg (hs : s.Fits) (h : s.shift? x y = some t) : t.shift? (-x) (-y) = some s := by
  obtain ⟨hlo, hhi, ht⟩ := (shift?_eq_some_iff hs).1 h
  rw [shift?_eq_some_iff ht]
  exact ⟨by omega, by omega, hs⟩

/-- For spans that fit: two are joined unless what lies between their ends is too long, to the least
span that contains both, and neither the order nor the bracketing matters, for failures as little as
for results. A shift fails if and only if an end leaves its range, the ends are reversed or the new
length is too long; otherwise the shift back gives the span again. -/
theorem join?_isLUB_and_shift?_neg (ha : a.Fits) (hb : b.Fits) (c : Span) (x y : Int) :
    (a.join? b = none ↔ maxLength < max a.hi b.hi - min a.lo b.lo) ∧
      (∀ s, a.join? b = some s → s.Fits ∧ IsLUB {a, b} s) ∧
      a.join? b = b.join? a ∧ a.join? a = some a ∧
      (a.join? b).bind (·.join? c) = (b.join? c).bind (a.join? ·) ∧
      (a.shift? x y = none ↔
        a.lo + x < 0 ∨ a.hi + y < 0 ∨ maxOffset < a.lo + x ∨ maxOffset < a.hi + y ∨
          a.hi + y < a.lo + x ∨ maxLength < a.hi + y - (a.lo + x)) ∧
      ∀ t, a.shift? x y = some t →
        (t.lo : Int) = a.lo + x ∧ (t.hi : Int) = a.hi + y ∧ t.Fits ∧
          t.shift? (-x) (-y) = some a := by
  refine ⟨join?_eq_none_iff ha hb, ?_, join?_comm a b, join?_self ha, join?_assoc a b c,
    shift?_eq_none_iff ha, ?_⟩
  · intro s hs
    obtain ⟨rfl, hfits⟩ := join?_eq_some_iff.1 hs
    exact ⟨hfits, isLUB_pair⟩
  · intro t ht
    obtain ⟨hlo, hhi, hfits⟩ := (shift?_eq_some_iff ha).1 ht
    exact ⟨hlo, hhi, hfits, shift?_neg ha ht⟩

/-- Two spans that are one too far apart, and an empty span that is moved to all that fits. -/
theorem join?_isLUB_and_shift?_neg_of_far :
    (⟨5, 0⟩ : Span).Fits ∧ (⟨4294967300, 1⟩ : Span).Fits ∧
      join? ⟨5, 0⟩ ⟨4294967300, 1⟩ = none ∧
      (join? ⟨4294967300, 1⟩ ⟨0, 2⟩).bind (join? ⟨5, 0⟩ ·) = none ∧
      shift? ⟨5, 0⟩ (-5) 4294967290 = some ⟨0, 4294967295⟩ ∧
      shift? ⟨0, 4294967295⟩ (- -5) (-4294967290) = some ⟨5, 0⟩ := by
  have ha : (⟨5, 0⟩ : Span).Fits := by decide
  have hb : (⟨4294967300, 1⟩ : Span).Fits := by decide
  have hshift : shift? ⟨5, 0⟩ (-5) 4294967290 = some ⟨0, 4294967295⟩ := by decide
  obtain ⟨hnone, -, -, -, hassoc, -, hback⟩ :=
    join?_isLUB_and_shift?_neg ha hb ⟨0, 2⟩ (-5) 4294967290
  have hfar := hnone.2 (by decide)
  rw [hfar] at hassoc
  exact ⟨ha, hb, hfar, hassoc.symm, hshift, (hback _ hshift).2.2.2⟩

end LetLang.Span
