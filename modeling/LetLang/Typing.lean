import LetLang.Catalog
import LetLang.Scope
import LetLang.Tree

/-!
Types noted on trees. Expressions are typed in the scope of their place; a declaration binds its
name after its own initial value is typed, and the blocks of an `IF` or `WHILE` bind in a scope of
their own. A block stops at its first error, but what it has bound by then stays bound.
-/

namespace LetLang

inductive TypeError where
  | emptySource
  | notACall
  | unknownType (name : String)
  | voidDeclaration
  | reservedName (name : String)
  | redeclaration (name : String)
  | undeclared (name : String)
  | notAssignable (source target : Ty)
  | conditionNotBoolean (actual : Ty)
  | emptyThen
  | literal (error : LiteralError)
  | incompatibleOperands (op : Operator) (lhs rhs : Ty)
  | unknownFunction (name : String) (arity : Nat)
  | argumentMismatch (expected actual : Ty)
  deriving DecidableEq, Repr

abbrev TypeResult (α : Type) := Except (Located TypeError) α

namespace Typing

def failAt {α : Type} (span : Span) (e : TypeError) : TypeResult α := .error (span.locate e)

variable (catalog : Catalog)

mutual

def expr (scope : Scope) : Expr .parsed → TypeResult (Expr .typed)
  | .literal raw span _ =>
    match raw.check with
    | .ok l => .ok (.literal l span l.ty)
    | .error e => failAt span (.literal e)
  | .group inner span _ => do
    let inner ← expr scope inner
    return .group inner span inner.ty
  | .binary op lhs rhs span _ => do
    let lhs ← expr scope lhs
    let rhs ← expr scope rhs
    match op.type? lhs.ty rhs.ty with
    | some t => return .binary op lhs rhs span t
    | none => failAt span (.incompatibleOperands op lhs.ty rhs.ty)
  | .var name span _ =>
    match scope.lookup? name.name with
    | some t => .ok (.var name span t)
    | none => failAt name.span (.undeclared name.name)
  | .call name args _ span _ =>
    match catalog.function? name.name args.length with
    | none => failAt span (.unknownFunction name.name args.length)
    | some signature => do
      let args ← arguments scope args signature.params
      return .call name args signature.host span signature.result

/-- Each argument against its parameter, in order. -/
def arguments (scope : Scope) : List (Expr .parsed) → List Ty → TypeResult (List (Expr .typed))
  | arg :: args, param :: params => do
    let arg ← expr scope arg
    if arg.ty.assignable param then
      let args ← arguments scope args params
      return arg :: args
    else failAt arg.span (.argumentMismatch param arg.ty)
  | _, _ => .ok []

end

/-- An expression whose value is stored as a `target`. -/
def value (scope : Scope) (target : Ty) (e : Expr .parsed) : TypeResult (Expr .typed) := do
  let e ← expr catalog scope e
  if e.ty.assignable target then return e else failAt e.span (.notAssignable e.ty target)

def condition (scope : Scope) (e : Expr .parsed) : TypeResult (Expr .typed) := do
  let e ← expr catalog scope e
  if e.ty = .boolean then return e else failAt e.span (.conditionNotBoolean e.ty)

/-- The type that a declaration gives its name, if name and type are good for one. -/
def declaredType (name ty : Ident) : TypeResult Ty :=
  if catalog.isReserved name.name then failAt name.span (.reservedName name.name)
  else
    match Ty.ofName? ty.name with
    | none => failAt ty.span (.unknownType ty.name)
    | some .void => failAt ty.span .voidDeclaration
    | some t => .ok t

def initialValue (scope : Scope) (target : Ty) :
    Option (Expr .parsed) → TypeResult (Option (Expr .typed))
  | none => .ok none
  | some e => some <$> value catalog scope target e

/-- The binding is made even where it is then refused as a second one. -/
def declaration (scope : Scope) (name ty : Ident) (initial : Option (Expr .parsed)) (span : Span) :
    TypeResult (Stmt .typed) × Scope :=
  let checked := do
    let t ← declaredType catalog name ty
    let initial ← initialValue catalog scope t initial
    return (t, initial)
  match checked with
  | .error e => (.error e, scope)
  | .ok (t, initial) =>
    let outcome :=
      if (scope.local? name.name).isSome then failAt name.span (.redeclaration name.name)
      else .ok (.declaration name t initial span)
    (outcome, scope.define name.name t)

mutual

/-- The typed statement or the first error in it, and the scope after it. -/
def stmt (scope : Scope) : Stmt .parsed → TypeResult (Stmt .typed) × Scope
  | .expr e span =>
    (if e.isCall then (.expr · span) <$> expr catalog scope e
      else failAt e.span .notACall, scope)
  | .declaration name ty initial span => declaration catalog scope name ty initial span
  | .assignment target e span =>
    (match scope.lookup? target.name with
      | none => failAt target.span (.undeclared target.name)
      | some t => (.assignment target · span) <$> value catalog scope t e, scope)
  | .branch test yes no span =>
    (do
      let test ← condition catalog scope test
      if yes.isEmpty then failAt span .emptyThen
      else
        let yes ← (block scope.enter yes).1
        let no ← (block scope.enter no).1
        return .branch test yes no span, scope)
  | .loop test body span =>
    (do
      let test ← condition catalog scope test
      let body ← (block scope.enter body).1
      return .loop test body span, scope)

def block (scope : Scope) : Block .parsed → TypeResult (Block .typed) × Scope
  | [] => (.ok [], scope)
  | s :: ss =>
    match stmt scope s with
    | (.error e, scope) => (.error e, scope)
    | (.ok s, scope) =>
      match block scope ss with
      | (.error e, scope) => (.error e, scope)
      | (.ok ss, scope) => (.ok (s :: ss), scope)

end

/-- A program as a whole. -/
def program (scope : Scope) (b : Block .parsed) : TypeResult (Block .typed) × Scope :=
  if b.isEmpty then (failAt ⟨0, 0⟩ .emptySource, scope) else block catalog scope b

end Typing

end LetLang
