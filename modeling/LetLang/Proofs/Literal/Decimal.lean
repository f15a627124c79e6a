import LetLang.Proofs.Text.Numeral
import LetLang.Proofs.Typing.Judgements

/-! A decimal is kept in one form. The bound is on the value of its text, and the whole part is
below a power of ten just if few digits are left of it without the zeros in front. So what is kept
can be made digit by digit, and two texts keep the same if they differ in those zeros only. -/

namespace LetLang

open Rules
open Text (isDigits digitsValue numeral IsNumeral)

namespace Rules

variable {whole whole' fraction : List Char}

/-- The digits of the whole part count only through its value. -/
theorem spellsFraction_of_digitsValue (h : isDigits whole') (hf : isDigits fraction)
    (hv : digitsValue whole' = digitsValue whole) :
    SpellsFraction (whole' ++ '.' :: fraction)
      (mkRat (digitsValue (whole ++ fraction)) (Nat.pow 10 fraction.length)) := by
  have := SpellsFraction.point h hf
  rwa [Text.digitsValue_append, hv, ← Text.digitsValue_append] at this

/-- The fraction is less than one, so it does not reach the next whole number. -/
theorem value_lt_iff (hf : isDigits fraction) (n : Nat) :
    mkRat (digitsValue (whole ++ fraction)) (Nat.pow 10 fraction.length) < (n : Rat) ↔
      digitsValue whole < n := by
  have hpow : 0 < Nat.pow 10 fraction.length := Nat.pow_pos (by decide)
  have hlt : digitsValue fraction < Nat.pow 10 fraction.length :=
    Text.digitsValue_lt fun c hc => Text.isDigit_of_mem hf hc
  rw [Rat.mkRat_eq_div, Rat.div_lt_iff (Rat.natCast_pos.2 hpow), Rat.intCast_natCast,
    ← Rat.natCast_mul, Rat.natCast_lt_natCast, Text.digitsValue_append_eq]
  generalize Nat.pow 10 fraction.length = unit at hpow hlt ⊢
  constructor
  · intro h
    apply Nat.lt_of_mul_lt_mul_right (a := unit)
    exact Nat.lt_of_le_of_lt (Nat.le_add_right _ _) h
  · intro h
    calc digitsValue whole * unit + digitsValue fraction
        < digitsValue whole * unit + unit := Nat.add_lt_add_left hlt _
      _ = (digitsValue whole + 1) * unit := (Nat.succ_mul ..).symm
      _ ≤ n * unit := Nat.mul_le_mul_right _ h

end Rules

namespace BoundedDecimal

/-- What is kept of a text: its value, its digits after the point, and as few digits before the
point as spell the same number. -/
structure Keeps (cs kept : List Char) : Prop where
  value : ∃ q, SpellsFraction cs q ∧ SpellsFraction kept q
  digits : ∃ whole whole' fraction, isDigits whole ∧ isDigits fraction ∧
    cs = whole ++ '.' :: fraction ∧ kept = whole' ++ '.' :: fraction ∧
    IsNumeral whole' ∧ digitsValue whole' = digitsValue whole ∧ whole'.length ≤ maxWholeDigits

/-- The same number before the point and the same digits after it. -/
def SameDigits (cs cs' : List Char) : Prop :=
  ∃ whole whole' fraction, isDigits whole ∧ isDigits whole' ∧ isDigits fraction ∧
    cs = whole ++ '.' :: fraction ∧ cs' = whole' ++ '.' :: fraction ∧
    digitsValue whole = digitsValue whole'

/-- The text without the zeros in front, if few enough digits are left before the point. -/
def trimmed? (cs : List Char) : Option (List Char) :=
  match cs.dropWhile (· ≠ '.') with
  | [] => none
  | _ :: fraction =>
    let whole := cs.takeWhile (· ≠ '.')
    if isDigits whole ∧ isDigits fraction ∧
        (whole.dropWhile (· = '0')).length ≤ maxWholeDigits then
      some (Text.unpadded whole ++ '.' :: fraction)
    else none

theorem toList_text (d : BoundedDecimal) : d.text.toList = numeral d.whole ++ '.' :: d.fraction :=
  String.toList_ofList

variable {cs cs' : List Char} {d d' : BoundedDecimal}

theorem ofChars?_text (d : BoundedDecimal) : ofChars? d.text.toList = some d := by
  rw [ofChars?_eq_some_iff]
  exact ⟨_, d.toList_text, Text.isDigits_numeral _, Text.digitsValue_numeral _⟩

theorem text_injective (h : d.text = d'.text) : d = d' := by
  have := ofChars?_text d
  rw [h, ofChars?_text d'] at this
  exact (Option.some.inj this).symm

theorem length_numeral_le (d : BoundedDecimal) : (numeral d.whole).length ≤ maxWholeDigits :=
  (Nat.length_toDigits_le_iff (by decide) (by decide)).2 d.whole_lt

theorem exists_ofChars?_iff :
    (∃ d, ofChars? cs = some d) ↔ ∃ q, SpellsFraction cs q ∧ q < (limit : Rat) := by
  constructor
  · intro ⟨d, h⟩
    obtain ⟨whole, rfl, hw, hv⟩ := ofChars?_eq_some_iff.1 h
    refine ⟨_, .point hw d.isDigits_fraction, ?_⟩
    rw [value_lt_iff d.isDigits_fraction, hv]
    exact d.whole_lt
  · intro ⟨q, h, hlt⟩
    cases h with
    | @point whole fraction hw hf =>
      rw [value_lt_iff hf] at hlt
      exact ⟨⟨digitsValue whole, fraction, hlt, hf⟩, ofChars?_eq_some_iff.2 ⟨whole, rfl, hw, rfl⟩⟩

theorem keeps_of_ofChars? (h : ofChars? cs = some d) : Keeps cs d.text.toList := by
  obtain ⟨whole, rfl, hw, hv⟩ := ofChars?_eq_some_iff.1 h
  have hkept : digitsValue (numeral d.whole) = digitsValue whole := by
    rw [Text.digitsValue_numeral, hv]
  rw [toList_text]
  constructor
  · exact ⟨_, .point hw d.isDigits_fraction,
      spellsFraction_of_digitsValue (Text.isDigits_numeral _) d.isDigits_fraction hkept⟩
  · exact ⟨whole, _, _, hw, d.isDigits_fraction, rfl, rfl, Text.isNumeral_numeral _, hkept,
      d.length_numeral_le⟩

theorem eq_iff_sameDigits (h : ofChars? cs = some d) (h' : ofChars? cs' = some d') :
    d = d' ↔ SameDigits cs cs' := by
  obtain ⟨whole, rfl, hw, hv⟩ := ofChars?_eq_some_iff.1 h
  obtain ⟨whole', rfl, hw', hv'⟩ := ofChars?_eq_some_iff.1 h'
  constructor
  · intro he
    subst he
    exact ⟨whole, whole', _, hw, hw', d.isDigits_fraction, rfl, rfl, hv.trans hv'.symm⟩
  · intro ⟨xs, xs', fraction, hxs, hxs', _, he, he', hsame⟩
    -- both texts are cut at their only point
    obtain ⟨rfl, hfraction⟩ :=
      Text.append_cons_injective (Text.point_not_mem hw) (Text.point_not_mem hxs) he
    obtain ⟨rfl, hfraction'⟩ :=
      Text.append_cons_injective (Text.point_not_mem hw') (Text.point_not_mem hxs') he'
    have hwhole : d.whole = d'.whole := by rw [← hv, ← hv', hsame]
    have hfractions : d.fraction = d'.fraction := hfraction.trans hfraction'.symm
    cases d
    cases d'
    cases hwhole
    cases hfractions
    rfl

/-- Digit by digit the same is kept as by value. -/
theorem map_text_ofChars? (cs : List Char) :
    (ofChars? cs).map (·.text.toList) = trimmed? cs := by
  unfold ofChars? trimmed?
  cases hrest : cs.dropWhile (· ≠ '.') with
  | nil => rfl
  | cons c fraction =>
    dsimp only
    by_cases hw : isDigits (cs.takeWhile (· ≠ '.'))
    · have hdigits : ∀ c ∈ cs.takeWhile (· ≠ '.'), c.isDigit := fun c => Text.isDigit_of_mem hw
      have hfew : digitsValue (cs.takeWhile (· ≠ '.')) < limit ↔
          ((cs.takeWhile (· ≠ '.')).dropWhile (· = '0')).length ≤ maxWholeDigits :=
        Text.digitsValue_lt_pow_iff hdigits (by decide)
      rw [if_pos hw]
      split
      · next h =>
        rw [if_pos ⟨hw, h.2, hfew.1 h.1⟩, Option.map_some, toList_text,
          Text.numeral_digitsValue hdigits]
      · next h =>
        rw [if_neg fun hall => h ⟨hfew.2 hall.2.2, hall.2.1⟩, Option.map_none]
    · rw [if_neg hw, if_neg fun hall => hw hall.1, Option.map_none]

/-- Every text: it is kept just if it spells a fraction below `10 ^ 31`, and what is kept is what is
left without the zeros in front; what is kept of it is kept as it is; and of two texts the same is
kept just if they have the same number before the point and the same digits after it. -/
theorem ofChars?_canonical :
    (∀ cs, (∃ d, ofChars? cs = some d) ↔
      ∃ q, SpellsFraction cs q ∧ q < (Nat.pow 10 31 : Nat)) ∧
    (∀ cs, (ofChars? cs).map (·.text.toList) = trimmed? cs) ∧
    (∀ cs d, ofChars? cs = some d →
      Keeps cs d.text.toList ∧ ofChars? d.text.toList = some d) ∧
    (∀ cs cs' d d', ofChars? cs = some d → ofChars? cs' = some d' →
      (d = d' ↔ SameDigits cs cs') ∧ (d.text = d'.text ↔ SameDigits cs cs')) := by
  refine ⟨fun _ => exists_ofChars?_iff, map_text_ofChars?, ?_, ?_⟩
  · intro cs d h
    exact ⟨keeps_of_ofChars? h, ofChars?_text d⟩
  · intro cs cs' d d' h h'
    have heq := eq_iff_sameDigits h h'
    refine ⟨heq, ?_⟩
    rw [← heq]
    exact ⟨text_injective, congrArg _⟩

theorem ofChars?_canonical_of_zeros_in_front :
    ∃ d d', ofChars? "007.250".toList = some d ∧ ofChars? "7.250".toList = some d' ∧
      d.text = "7.250" ∧
      Keeps "007.250".toList d.text.toList ∧ ofChars? d.text.toList = some d ∧
      (d = d' ↔ SameDigits "007.250".toList "7.250".toList) ∧
      (d.text = d'.text ↔ SameDigits "007.250".toList "7.250".toList) := by
  let d : BoundedDecimal := ⟨7, "250".toList, by decide, by decide⟩
  have h : ofChars? "007.250".toList = some d := by decide
  have h' : ofChars? "7.250".toList = some d := by decide
  obtain ⟨-, -, hkept, hsame⟩ := ofChars?_canonical
  obtain ⟨hkeeps, hfixed⟩ := hkept _ _ h
  obtain ⟨heq, htext⟩ := hsame _ _ _ _ h h'
  exact ⟨d, d, h, h', by decide, hkeeps, hfixed, heq, htext⟩

end BoundedDecimal

end LetLang
