import LetLang.Literal
import LetLang.Operator

/-!
Programs as trees. The same tree is read from a source and then typed: typing replaces type names by
types and written literals by checked ones, and it notes the type of each expression and the host
function of each call.
-/

namespace LetLang

structure Ident where
  name : String
  span : Span
  deriving DecidableEq, Repr

inductive Phase where
  | parsed | typed

namespace Phase

/-- How a declaration gives its type. -/
abbrev TypeRef : Phase → Type
  | parsed => Ident
  | typed => Ty

/-- What is known of an expression. -/
abbrev Note : Phase → Type
  | parsed => Unit
  | typed => Ty

abbrev Constant : Phase → Type
  | parsed => RawLiteral
  | typed => Literal

/-- What a call resolves to. -/
abbrev Callee : Phase → Type
  | parsed => Unit
  | typed => String

end Phase

inductive Expr (p : Phase) where
  | literal (value : p.Constant) (span : Span) (note : p.Note)
  | group (inner : Expr p) (span : Span) (note : p.Note)
  | binary (op : Operator) (lhs rhs : Expr p) (span : Span) (note : p.Note)
  | var (name : Ident) (span : Span) (note : p.Note)
  | call (name : Ident) (args : List (Expr p)) (callee : p.Callee) (span : Span) (note : p.Note)

namespace Expr

variable {p : Phase}

def span : Expr p → Span
  | literal _ s _ | group _ s _ | binary _ _ _ s _ | var _ s _ | call _ _ _ s _ => s

def note : Expr p → p.Note
  | literal _ _ n | group _ _ n | binary _ _ _ _ n | var _ _ n | call _ _ _ _ n => n

def isCall : Expr p → Bool
  | call .. => true
  | _ => false

end Expr

/-- The type that typing has noted. -/
abbrev Expr.ty (e : Expr .typed) : Ty := e.note

inductive Stmt (p : Phase) where
  | expr (value : Expr p) (span : Span)
  | declaration (name : Ident) (ty : p.TypeRef) (initial : Option (Expr p)) (span : Span)
  | assignment (target : Ident) (value : Expr p) (span : Span)
  | branch (condition : Expr p) (yes no : List (Stmt p)) (span : Span)
  | loop (condition : Expr p) (body : List (Stmt p)) (span : Span)

def Stmt.span {p : Phase} : Stmt p → Span
  | expr _ s | declaration _ _ _ s | assignment _ _ s | branch _ _ _ s | loop _ _ s => s

abbrev Block (p : Phase) := List (Stmt p)

end LetLang
