import LetLang.Diagnostic
import LetLang.Java
import LetLang.Tree.Parser
import LetLang.Typing

/-!
From a source text to Java. The first error of any stage is the result, with its place in the
source.
-/

namespace LetLang

namespace LexError

def message : LexError → String
  | unclosedString => "unclosed string"
  | multipleDecimalPoints => "multiple decimal points in number"
  | unexpectedChar c => "unexpected character " ++ Text.quotedChar c

end LexError

namespace Expected

def describe : Expected → String
  | token kind => "token " ++ kind.name
  | keyword k => "keyword " ++ k.spelling

end Expected

namespace ParseError

def message : ParseError → String
  | unexpected expected actual => "expected " ++ expected.describe ++ ", but got " ++ actual.name
  | unexpectedAny expected actual =>
    "expected one of [" ++ ", ".intercalate (expected.map TokenKind.name) ++ "], but got " ++
      actual.name
  | tokenInExpr kind => "unexpected token " ++ kind.name ++ " in expression"
  | keywordInExpr k => "unexpected keyword " ++ k.spelling ++ " in expression"
  | keywordAsName k => "keyword " ++ k.spelling ++ " can't be used as a name"
  | unclosedGroup => "unclosed parenthesized expression"
  | emptySource => "empty source"
  | lexer e => e.message

end ParseError

namespace LiteralError

def message : LiteralError → String
  | integerOutOfRange => "integer literal out of range"
  | decimalOutOfRange => "decimal literal out of range"
  | invalidCharacter c => "invalid character " ++ Text.quotedChar c ++ " in string"

end LiteralError

namespace TypeError

def message : TypeError → String
  | emptySource => "empty source"
  | notACall => "expression statement must be a function call"
  | unknownType name => "unknown type `" ++ name ++ "`"
  | voidDeclaration => "variable can't be declared as VOID"
  | reservedName name => "`" ++ name ++ "` is reserved in the generated Java"
  | redeclaration name => "variable `" ++ name ++ "` is already declared in this scope"
  | undeclared name => "undeclared variable `" ++ name ++ "`"
  | notAssignable source target =>
    "type " ++ source.name ++ " is not assignable to " ++ target.name
  | conditionNotBoolean actual => "condition must be BOOLEAN, but got " ++ actual.name
  | emptyThen => "THEN branch can't be empty"
  | literal e => e.message
  | incompatibleOperands op lhs rhs =>
    "incompatible operand types " ++ lhs.name ++ " and " ++ rhs.name ++ " for `" ++ op.spelling ++
      "`"
  | unknownFunction name arity =>
    "unknown function `" ++ name ++ "` with " ++ toString arity ++ " arguments"
  | argumentMismatch expected actual =>
    "argument of type " ++ actual.name ++ " is not assignable to parameter of type " ++
      expected.name

end TypeError

/-- The error of a stage. -/
inductive CompileError where
  | lex (e : Located LexError)
  | parse (e : Located ParseError)
  | typing (e : Located TypeError)
  deriving DecidableEq, Repr

namespace CompileError

def message : CompileError → Located String
  | lex e => e.map LexError.message
  | parse e => e.map ParseError.message
  | typing e => e.map TypeError.message

def span (e : CompileError) : Span := e.message.span

def render? (source : String) (e : CompileError) : Option String :=
  Diagnostic.render? source.toList e.span e.message.value

end CompileError

namespace Compiler

/-- The tokens of a source, if all of it can be cut into tokens. -/
def tokens (source : String) : Result CompileError (List Token) :=
  let lexing := Lexer.lex source
  match lexing.failure? with
  | some f => .error (f.map .lex)
  | none => .ok lexing.tokens

def tree (source : String) : Result CompileError (Block .parsed) := do
  let tokens ← tokens source
  (parse source tokens).mapError .parse

def typedTree (catalog : Catalog) (source : String) : Result CompileError (Block .typed) := do
  let program ← tree source
  match (Typing.program catalog .root program).1 with
  | .ok program => .ok program
  | .error e => .error (.error (.typing e))

def compile (catalog : Catalog) (options : Java.Options) (source : String) :
    Result CompileError String := do
  let program ← typedTree catalog source
  .ofOption (Java.generate? catalog options program)

/-- A source typed in a scope that other sources may have bound names in, and the scope it leaves
behind. Nothing is bound by a source that cannot be read. -/
def typedIn (catalog : Catalog) (scope : Scope) (source : String) :
    Result CompileError (Block .typed) × Scope :=
  match parseProgram source with
  | .error f => (.error (f.map .parse), scope)
  | .ok program =>
    match Typing.program catalog scope program with
    | (.ok program, scope) => (.ok program, scope)
    | (.error e, scope) => (.error (.error (.typing e)), scope)

end Compiler

end LetLang
