import LetLang.Catalog.Reserved
import LetLang.Table
import LetLang.Ty

/-!
What a program may use: the functions, each known by its name and number of parameters, and how
every type is written in the host language. A later definition under the same key replaces the
earlier one.
-/

namespace LetLang

structure Signature where
  params : List Ty
  result : Ty
  /-- The name of the function in the host language. -/
  host : String
  deriving DecidableEq, Repr

namespace Signature

/-- What stands before the first point of the host name, if it has one. -/
def qualifier? (s : Signature) : Option String :=
  let name := s.host.toList
  if name.contains '.' then some (String.ofList (name.takeWhile (· ≠ '.'))) else none

end Signature

def Ty.defaultHost : Ty → String
  | boolean => "boolean"
  | integer => "int"
  | decimal => "double"
  | string => "String"
  | void => "void"
  | any => "Object"

structure Catalog where
  functions : Table (String × Nat) Signature
  hostType : Ty → String
  /-- A function is kept under its own number of parameters. -/
  arity_eq : ∀ {name arity s}, functions.get? (name, arity) = some s → s.params.length = arity

namespace Catalog

/-- All types and no functions. -/
def bare : Catalog := ⟨.empty, Ty.defaultHost, nofun⟩

def define (c : Catalog) (name : String) (s : Signature) : Catalog where
  functions := c.functions.insert (name, s.params.length) s
  hostType := c.hostType
  arity_eq := by
    intro name' arity s' h
    rw [Table.get?_insert] at h
    split at h
    · next hk =>
      cases hk
      rw [Option.some.inj h]
    · exact c.arity_eq h

def setHostType (c : Catalog) (t : Ty) (host : String) : Catalog :=
  { c with hostType := fun u => if u = t then host else c.hostType u }

def function? (c : Catalog) (name : String) (arity : Nat) : Option Signature :=
  c.functions.get? (name, arity)

/-- A local named like the qualifier of a host function would hide it. -/
def isReserved (c : Catalog) (name : String) : Bool :=
  reservedWords.contains name || c.functions.values.any fun s => s.qualifier? == some name

def standard : Catalog :=
  bare
    |>.define "print" ⟨[.any], .void, "System.out.println"⟩
    |>.define "abs" ⟨[.decimal], .decimal, "Math.abs"⟩
    |>.define "sqrt" ⟨[.decimal], .decimal, "Math.sqrt"⟩
    |>.define "min" ⟨[.decimal, .decimal], .decimal, "Math.min"⟩
    |>.define "max" ⟨[.decimal, .decimal], .decimal, "Math.max"⟩

theorem function?_define (c : Catalog) (name name' : String) (arity : Nat) (s : Signature) :
    (c.define name s).function? name' arity =
      if name' = name ∧ arity = s.params.length then some s else c.function? name' arity := by
  simp [define, function?, Table.get?_insert]

end Catalog

end LetLang
