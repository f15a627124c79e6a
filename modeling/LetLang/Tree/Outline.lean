import LetLang.Text.Layout
import LetLang.Tree

/-!
The outline of a tree: a line for each node, two spaces deeper than the node it belongs to. Typed
expressions show their type after their span, and calls the host function they stand for.
-/

namespace LetLang

open Text (Line)

namespace Phase

variable {p : Phase}

def showTypeRef : {p : Phase} → p.TypeRef → String
  | parsed, name => name.name
  | typed, ty => ty.name

def showNote : {p : Phase} → p.Note → String
  | parsed, _ => ""
  | typed, ty => " %: " ++ ty.name

def showConstant : {p : Phase} → p.Constant → String
  | parsed, raw => raw.describe
  | typed, literal => literal.raw.describe

def showCallee : {p : Phase} → p.Callee → String
  | parsed, _ => ""
  | typed, host => " -> " ++ host

end Phase

namespace Expr

variable {p : Phase}

/-- A node with its span and note. -/
def headline (level : Nat) (head : String) (span : Span) (note : p.Note) : Line :=
  ⟨level, head ++ " (" ++ span.display ++ Phase.showNote note ++ ")"⟩

mutual

def outline (level : Nat) : Expr p → List Line
  | literal value span note => [headline level (Phase.showConstant value) span note]
  | group inner span note => headline level "group" span note :: inner.outline (level + 1)
  | binary op lhs rhs span note =>
    headline level ("binary " ++ op.name) span note ::
      (lhs.outline (level + 1) ++ rhs.outline (level + 1))
  | var name span note => [headline level ("variable " ++ name.name) span note]
  | call name args callee span note =>
    headline level ("call " ++ name.name ++ Phase.showCallee callee) span note ::
      outlineAll (level + 1) args

def outlineAll (level : Nat) : List (Expr p) → List Line
  | [] => []
  | e :: es => e.outline level ++ outlineAll level es

end

end Expr

namespace Stmt

variable {p : Phase}

mutual

def outline (level : Nat) : Stmt p → List Line
  | expr value _ => ⟨level, "expression"⟩ :: value.outline (level + 1)
  | declaration name ty none _ =>
    [⟨level, "declaration " ++ name.name ++ ": " ++ Phase.showTypeRef ty⟩]
  | declaration name ty (some initial) _ =>
    ⟨level, "declaration " ++ name.name ++ ": " ++ Phase.showTypeRef ty ++ " (initialized)"⟩ ::
      initial.outline (level + 1)
  | assignment target value _ =>
    ⟨level, "assignment " ++ target.name⟩ :: value.outline (level + 1)
  | branch condition yes no _ =>
    ⟨level, "if"⟩ :: (condition.outline (level + 1) ++
      ⟨level + 1, "then"⟩ :: (outlineAll (level + 2) yes ++
        if no.isEmpty then [] else ⟨level + 1, "else"⟩ :: outlineAll (level + 2) no))
  | loop condition body _ =>
    ⟨level, "while"⟩ :: (condition.outline (level + 1) ++
      ⟨level + 1, "do"⟩ :: outlineAll (level + 2) body)

def outlineAll (level : Nat) : Block p → List Line
  | [] => []
  | s :: ss => s.outline level ++ outlineAll level ss

end

end Stmt

def Block.outline? {p : Phase} (b : Block p) : Option String :=
  Text.layout? 2 (Stmt.outlineAll 0 b)

end LetLang
