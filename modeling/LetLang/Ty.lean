/-!
The types of the language. A value may be stored where its own type is expected, an `INTEGER` also
where a `DECIMAL` is, and anything but `VOID` where `ANY` is.
-/

namespace LetLang

inductive Ty where
  | boolean | integer | decimal | string | void | any
  deriving DecidableEq, Repr

namespace Ty

def all : List Ty := [boolean, integer, decimal, string, void, any]

def name : Ty → String
  | boolean => "BOOLEAN"
  | integer => "INTEGER"
  | decimal => "DECIMAL"
  | string => "STRING"
  | void => "VOID"
  | any => "ANY"

def ofName? (s : String) : Option Ty := all.find? fun t => t.name == s

def isNumeric (t : Ty) : Bool := t = integer || t = decimal

def assignable (source target : Ty) : Bool :=
  source = target || (source = integer && target = decimal) || (source ≠ void && target = any)

/-- The type of an arithmetic operation. -/
def widen? (a b : Ty) : Option Ty :=
  if a = integer ∧ b = integer then some integer
  else if a.isNumeric ∧ b.isNumeric then some decimal
  else none

theorem ofName?_name (t : Ty) : ofName? t.name = some t := by
  cases t <;> decide

theorem name_of_ofName? {s : String} {t : Ty} (h : ofName? s = some t) : t.name = s := by
  simpa using List.find?_some h

theorem assignable_refl (t : Ty) : assignable t t := by
  simp [assignable]

theorem assignable_trans {a b c : Ty} (h : assignable a b) (h' : assignable b c) :
    assignable a c := by
  cases a <;> cases b <;> cases c <;> simp_all [assignable]

end Ty

end LetLang
