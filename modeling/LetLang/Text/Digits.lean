/-!
Decimal digits. A text of digits spells a number, and the text of a number spells that number.
-/

namespace LetLang.Text

def isDigits (cs : List Char) : Bool := !cs.isEmpty && cs.all Char.isDigit

/-- The number that digits spell. -/
def digitsValue (cs : List Char) : Nat := Nat.ofDigitChars 10 cs 0

/-- The number that digits spell, if nothing but digits is there. -/
def naturalValue? (cs : List Char) : Option Nat :=
  if isDigits cs then some (digitsValue cs) else none

/-- The number that digits spell with a sign before them, which may be missing. -/
def integerValue? : List Char → Option Int
  | '+' :: cs => (naturalValue? cs).map Int.ofNat
  | '-' :: cs => (naturalValue? cs).map fun n : Nat => -(n : Int)
  | cs => (naturalValue? cs).map Int.ofNat

def numeral (n : Nat) : List Char := Nat.toDigits 10 n

theorem digitsValue_numeral (n : Nat) : digitsValue (numeral n) = n :=
  Nat.ofDigitChars_ten_toDigits

theorem isDigits_numeral (n : Nat) : isDigits (numeral n) := by
  have hne : numeral n ≠ [] := Nat.toDigits_ne_nil
  have hall : (numeral n).all Char.isDigit :=
    List.all_eq_true.2 fun c hc => Nat.isDigit_of_mem_toDigits (by decide) (by decide) hc
  simp [isDigits, hne, hall]

def integerNumeral : Int → List Char
  | .ofNat n => numeral n
  | .negSucc n => '-' :: numeral (n + 1)

end LetLang.Text
