import LetLang.Ty
import LetLang.Token

/-!
Binary operators. All of them group to the left; multiplication and division bind tightest, then
addition and subtraction, then the two equalities.
-/

namespace LetLang

inductive Operator where
  | eq | notEq | add | sub | mul | div
  deriving DecidableEq, Repr

namespace Operator

def all : List Operator := [eq, notEq, add, sub, mul, div]

def name : Operator → String
  | eq => "Eq"
  | notEq => "NotEq"
  | add => "Add"
  | sub => "Sub"
  | mul => "Mul"
  | div => "Div"

def mark : Operator → Mark
  | eq => .equal
  | notEq => .notEqual
  | add => .plus
  | sub => .minus
  | mul => .star
  | div => .slash

def spelling (op : Operator) : String := String.ofList op.mark.spelling

def ofMark? : Mark → Option Operator
  | .equal => some eq
  | .notEqual => some notEq
  | .plus => some add
  | .minus => some sub
  | .star => some mul
  | .slash => some div
  | _ => none

def isEquality (op : Operator) : Bool := op = eq || op = notEq

/-- How tightly the operator holds its left operand. -/
def leftPower : Operator → Nat
  | eq | notEq => 1
  | add | sub => 3
  | mul | div => 5

/-- Its right operand is held tighter, so equal operators group to the left. -/
def rightPower (op : Operator) : Nat := op.leftPower + 1

/-- Equality compares values of one type; the others are arithmetic. -/
def type? (op : Operator) (lhs rhs : Ty) : Option Ty :=
  if op.isEquality then if lhs = rhs ∧ lhs ≠ .void then some .boolean else none
  else lhs.widen? rhs

theorem mem_all (op : Operator) : op ∈ all := by
  cases op <;> decide

theorem ofMark?_mark (op : Operator) : ofMark? op.mark = some op := by
  cases op <;> rfl

theorem mark_of_ofMark? {m : Mark} {op : Operator} (h : ofMark? m = some op) : op.mark = m := by
  unfold ofMark? at h
  split at h <;> simp at h <;> subst h <;> rfl

end Operator

end LetLang
