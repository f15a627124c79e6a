import LetLang.Text.Digits
import LetLang.Text.Quoted
import LetLang.Ty

/-!
Literals, as written and as checked. An integer is a number of 32 bits, a decimal is below `10 ^
31`, and the characters of a string are few enough to be written in Java as they are.
-/

namespace LetLang

open Text (isDigits digitsValue numeral integerValue? integerNumeral)

/-- A literal as it stands in the source: the digits of a number, what is between the quotes of a
string. -/
inductive RawLiteral where
  | bool (value : Bool)
  | integer (digits : String)
  | decimal (digits : String)
  | string (contents : String)
  deriving DecidableEq, Repr

/-- A signed number of 32 bits is below this, and not below its negation. -/
def BoundedInteger.limit : Int := 2147483648

structure BoundedInteger where
  value : Int
  neg_limit_le : -BoundedInteger.limit ≤ value
  value_lt : value < BoundedInteger.limit
  deriving DecidableEq, Repr

namespace BoundedInteger

def ofChars? (cs : List Char) : Option BoundedInteger :=
  match integerValue? cs with
  | none => none
  | some n => if h : -limit ≤ n ∧ n < limit then some ⟨n, h.1, h.2⟩ else none

def text (i : BoundedInteger) : String := String.ofList (integerNumeral i.value)

end BoundedInteger

def BoundedDecimal.maxWholeDigits : Nat := 31

def BoundedDecimal.limit : Nat := Nat.pow 10 maxWholeDigits

/-- The whole part is kept as a number, so leading zeros are lost; the digits after the point are
kept as they are. -/
structure BoundedDecimal where
  whole : Nat
  fraction : List Char
  whole_lt : whole < BoundedDecimal.limit
  isDigits_fraction : isDigits fraction
  deriving DecidableEq, Repr

namespace BoundedDecimal

def ofChars? (cs : List Char) : Option BoundedDecimal :=
  match cs.dropWhile (· ≠ '.') with
  | [] => none
  | _ :: fraction =>
    let whole := cs.takeWhile (· ≠ '.')
    if isDigits whole then
      if h : digitsValue whole < limit ∧ isDigits fraction then
        some ⟨digitsValue whole, fraction, h.1, h.2⟩
      else none
    else none

def text (d : BoundedDecimal) : String :=
  String.ofList (numeral d.whole ++ '.' :: d.fraction)

end BoundedDecimal

/-- The characters that a string may hold. -/
def PlainString.allows (c : Char) : Bool :=
  c.isAlphanum || ['_', '!', '?', '.', '+', '-', '/', '*', ' '].contains c

structure PlainString where
  text : String
  all_allowed : text.toList.all PlainString.allows
  deriving DecidableEq, Repr

namespace PlainString

/-- The first character that a string may not hold is reported. -/
def ofString (s : String) : Except Char PlainString :=
  match h : s.toList.find? (!allows ·) with
  | some c => .error c
  | none => .ok ⟨s, by simpa using h⟩

end PlainString

inductive Literal where
  | bool (value : Bool)
  | integer (value : BoundedInteger)
  | decimal (value : BoundedDecimal)
  | string (value : PlainString)
  deriving DecidableEq, Repr

inductive LiteralError where
  | integerOutOfRange
  | decimalOutOfRange
  | invalidCharacter (c : Char)
  deriving DecidableEq, Repr

namespace RawLiteral

def check : RawLiteral → Except LiteralError Literal
  | bool b => .ok (.bool b)
  | integer digits =>
    match BoundedInteger.ofChars? digits.toList with
    | some i => .ok (.integer i)
    | none => .error .integerOutOfRange
  | decimal digits =>
    match BoundedDecimal.ofChars? digits.toList with
    | some d => .ok (.decimal d)
    | none => .error .decimalOutOfRange
  | string contents =>
    match PlainString.ofString contents with
    | .ok s => .ok (.string s)
    | .error c => .error (.invalidCharacter c)

/-- One line that tells the literal from any other. -/
def describe : RawLiteral → String
  | bool b => "bool " ++ toString b
  | integer digits => "int " ++ digits
  | decimal digits => "decimal " ++ digits
  | string contents => "string " ++ Text.quoted contents

end RawLiteral

namespace Literal

def ty : Literal → Ty
  | bool _ => .boolean
  | integer _ => .integer
  | decimal _ => .decimal
  | string _ => .string

/-- The literal as it would be written in a source. -/
def raw : Literal → RawLiteral
  | bool b => .bool b
  | integer i => .integer i.text
  | decimal d => .decimal d.text
  | string s => .string s.text

end Literal

end LetLang
