import LetLang.Proofs.Text.Prefix

/-!
Digits, and the numeral of the number that they spell. Zeros in front count for nothing. Without
them the digits are the numeral, so their length says how large the number is.
-/

namespace LetLang.Text

/-- Digits with a zero in front only if that is all. -/
structure IsNumeral (cs : List Char) : Prop where
  isDigits : isDigits cs
  head_zero : cs.head? = some '0' → cs = ['0']

/-- The zeros in front are dropped, but for one if nothing else is there. -/
def unpadded (cs : List Char) : List Char :=
  match cs.dropWhile (· = '0') with
  | [] => ['0']
  | d :: ds => d :: ds

theorem digitsValue_append (as bs : List Char) :
    digitsValue (as ++ bs) = Nat.ofDigitChars 10 bs (digitsValue as) := by
  rw [digitsValue, digitsValue, Nat.ofDigitChars_append]

theorem digitsValue_append_eq (as bs : List Char) :
    digitsValue (as ++ bs) = digitsValue as * Nat.pow 10 bs.length + digitsValue bs := by
  rw [digitsValue_append, Nat.ofDigitChars_eq_ofDigitChars_zero, Nat.mul_comm]
  rfl

theorem digitChar_toNat {c : Char} (h : c.isDigit) :
    c.toNat - '0'.toNat < 10 ∧ Nat.digitChar (c.toNat - '0'.toNat) = c := by
  simp only [Char.isDigit, Bool.and_eq_true, decide_eq_true_eq] at h
  have hlo : '0'.toNat ≤ c.toNat := UInt32.le_iff_toNat_le.1 h.1
  have hhi : c.toNat ≤ '9'.toNat := UInt32.le_iff_toNat_le.1 h.2
  have hlt : c.toNat - '0'.toNat < 10 := by
    have : '9'.toNat = '0'.toNat + 9 := rfl
    omega
  refine ⟨hlt, Char.toNat_inj.1 ?_⟩
  rw [Nat.toNat_digitChar_of_lt_ten hlt]
  have : '0'.toNat = 48 := rfl
  omega

theorem digitsValue_lt {cs : List Char} (h : ∀ c ∈ cs, c.isDigit) :
    digitsValue cs < Nat.pow 10 cs.length := by
  induction cs with
  | nil => decide
  | cons c cs ih =>
    obtain ⟨hc, hcs⟩ := List.forall_mem_cons.1 h
    have hone : digitsValue [c] = c.toNat - '0'.toNat := by
      rw [digitsValue, Nat.ofDigitChars_cons, Nat.mul_zero, Nat.zero_add, Nat.ofDigitChars_nil]
    have hle : digitsValue [c] ≤ 9 := by
      rw [hone]
      exact Nat.le_of_lt_succ (digitChar_toNat hc).1
    calc digitsValue (c :: cs)
        = digitsValue [c] * Nat.pow 10 cs.length + digitsValue cs := digitsValue_append_eq [c] cs
      _ < 9 * Nat.pow 10 cs.length + Nat.pow 10 cs.length :=
          Nat.add_lt_add_of_le_of_lt (Nat.mul_le_mul_right _ hle) (ih hcs)
      _ = Nat.pow 10 (cs.length + 1) := by
          have : Nat.pow 10 (cs.length + 1) = Nat.pow 10 cs.length * 10 := rfl
          omega

/-- A digit behind a numeral is the numeral of ten times as much and the digit. -/
theorem numeral_append {n : Nat} {cs : List Char} (hn : 0 < n) (h : ∀ c ∈ cs, c.isDigit) :
    numeral n ++ cs = numeral (Nat.ofDigitChars 10 cs n) := by
  induction cs generalizing n with
  | nil => simp
  | cons c cs ih =>
    obtain ⟨hc, hcs⟩ := List.forall_mem_cons.1 h
    obtain ⟨hlt, hchar⟩ := digitChar_toNat hc
    have hstep := Nat.toDigits_append_toDigits (by decide : 1 < 10) hn hlt
    rw [Nat.toDigits_of_lt_base hlt, hchar] at hstep
    have hpos : 0 < 10 * n + (c.toNat - '0'.toNat) := by omega
    calc numeral n ++ c :: cs
        = (numeral n ++ [c]) ++ cs := by simp
      _ = numeral (10 * n + (c.toNat - '0'.toNat)) ++ cs := by rw [numeral, hstep, numeral]
      _ = numeral (Nat.ofDigitChars 10 (c :: cs) n) := by rw [ih hpos hcs, Nat.ofDigitChars_cons]

theorem numeral_of_head_ne_zero {c : Char} {cs : List Char} (h : ∀ d ∈ c :: cs, d.isDigit)
    (hc : c ≠ '0') : numeral (digitsValue (c :: cs)) = c :: cs := by
  obtain ⟨hd, hcs⟩ := List.forall_mem_cons.1 h
  obtain ⟨hlt, hchar⟩ := digitChar_toNat hd
  have hpos : 0 < c.toNat - '0'.toNat := by
    apply Nat.pos_of_ne_zero
    intro hzero
    apply hc
    rw [← hchar, hzero]
    rfl
  have hone : numeral (c.toNat - '0'.toNat) = [c] := by
    rw [numeral, Nat.toDigits_of_lt_base hlt, hchar]
  rw [digitsValue, Nat.ofDigitChars_cons, Nat.mul_zero, Nat.zero_add, ← numeral_append hpos hcs,
    hone, List.singleton_append]

theorem digitsValue_dropWhile (cs : List Char) :
    digitsValue (cs.dropWhile (· = '0')) = digitsValue cs := by
  induction cs with
  | nil => rfl
  | cons c cs ih =>
    rw [List.dropWhile_cons]
    split
    · next hc =>
      obtain rfl : c = '0' := by simpa using hc
      rw [ih]
      simp [digitsValue, Nat.ofDigitChars_cons]
    · rfl

theorem ne_zero_of_dropWhile {cs ds : List Char} {d : Char}
    (h : cs.dropWhile (· = '0') = d :: ds) : d ≠ '0' := by
  have hhead : d ∈ (cs.dropWhile (· = '0')).head? := by
    rw [h]
    rfl
  simpa using head?_dropWhile_eq_false d hhead

/-- The numeral of what digits spell is the digits without the zeros in front. -/
theorem numeral_digitsValue {cs : List Char} (h : ∀ c ∈ cs, c.isDigit) :
    numeral (digitsValue cs) = unpadded cs := by
  rw [← digitsValue_dropWhile, unpadded]
  cases hd : cs.dropWhile (· = '0') with
  | nil => rfl
  | cons d ds =>
    apply numeral_of_head_ne_zero _ (ne_zero_of_dropWhile hd)
    intro c hc
    exact h c ((List.dropWhile_sublist _).subset (hd ▸ hc))

theorem isNumeral_unpadded {cs : List Char} (h : ∀ c ∈ cs, c.isDigit) :
    IsNumeral (unpadded cs) where
  isDigits := by
    rw [← numeral_digitsValue h]
    exact isDigits_numeral _
  head_zero := by
    rw [unpadded]
    cases hd : cs.dropWhile (· = '0') with
    | nil => exact fun _ => rfl
    | cons d ds =>
      intro hzero
      exact absurd (Option.some.inj hzero) (ne_zero_of_dropWhile hd)

theorem isNumeral_numeral (n : Nat) : IsNumeral (numeral n) := by
  have hall : ∀ c ∈ numeral n, c.isDigit := fun c => isDigit_of_mem (isDigits_numeral n)
  have := isNumeral_unpadded hall
  rwa [← numeral_digitsValue hall, digitsValue_numeral] at this

/-- A number has one numeral. -/
theorem IsNumeral.eq_numeral {cs : List Char} (h : IsNumeral cs) :
    cs = numeral (digitsValue cs) := by
  have hall : ∀ c ∈ cs, c.isDigit := fun c => isDigit_of_mem h.isDigits
  obtain ⟨d, ds, rfl, -⟩ := isDigits_cons h.isDigits
  by_cases hd : d = '0'
  · rw [h.head_zero (by rw [hd]; rfl)]
    rfl
  · exact (numeral_of_head_ne_zero hall hd).symm

/-- A number is below a power of ten if its digits are few, the zeros in front not counted. -/
theorem digitsValue_lt_pow_iff {cs : List Char} {n : Nat} (h : ∀ c ∈ cs, c.isDigit) (hn : 0 < n) :
    digitsValue cs < Nat.pow 10 n ↔ (cs.dropWhile (· = '0')).length ≤ n := by
  have hlength : (unpadded cs).length ≤ n ↔ (cs.dropWhile (· = '0')).length ≤ n := by
    rw [unpadded]
    cases cs.dropWhile (· = '0') with
    | nil => exact iff_of_true hn (Nat.zero_le n)
    | cons d ds => rfl
  rw [← hlength, ← numeral_digitsValue h, numeral,
    Nat.length_toDigits_le_iff (by decide) hn, Nat.pow_eq]

end LetLang.Text
