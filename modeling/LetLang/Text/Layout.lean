/-!
Indented text. A line has a level and is padded with `indent` spaces for each level, but no line can
be padded to more than `maxWidth` columns: laying out a deeper one fails.
-/

namespace LetLang.Text

structure Line where
  level : Nat
  text : String
  deriving DecidableEq, Repr

def maxWidth : Nat := 65535

def spaces (n : Nat) : String := String.ofList (List.replicate n ' ')

def padding? (n : Nat) : Option String := if n ≤ maxWidth then some (spaces n) else none

namespace Line

def blank : Line := ⟨0, ""⟩

def render? (indent : Nat) (l : Line) : Option String :=
  (padding? (l.level * indent)).map fun pad => pad ++ l.text ++ "\n"

end Line

def layout? (indent : Nat) (lines : List Line) : Option String :=
  (lines.mapM (Line.render? indent)).map String.join

end LetLang.Text
