import LetLang.Token.Lexer
import LetLang.Token.Lexeme
import LetLang.Tree

/-!
Trees read from lexemes. Each reader takes some of the lexemes and returns the rest with a proof
that it is shorter; so the readers may call each other on what is left, and reading always ends. An
expression is an operand followed by the operators that bind tightly enough, each with what it
governs on its right.
-/

namespace LetLang

/-- What could stand at a place. -/
inductive Expected where
  | token (kind : TokenKind)
  | keyword (k : Keyword)
  deriving DecidableEq, Repr

inductive ParseError where
  | unexpected (expected : Expected) (actual : TokenKind)
  | unexpectedAny (expected : List TokenKind) (actual : TokenKind)
  | tokenInExpr (kind : TokenKind)
  | keywordInExpr (k : Keyword)
  | keywordAsName (k : Keyword)
  | unclosedGroup
  | emptySource
  | lexer (error : LexError)
  deriving DecidableEq, Repr

namespace Parser

/-- A value, and a rest of fewer than `bound` lexemes. -/
structure Parsed (α : Type) (bound : Nat) where
  value : α
  rest : List Lexeme
  shorter : rest.length < bound

abbrev ParseResult (α : Type) (bound : Nat) := Result (Located ParseError) (Parsed α bound)

def failAt {α : Type} (span : Span) (e : ParseError) : Result (Located ParseError) α :=
  .error (.error (span.locate e))

def joined {ε : Type} (a b : Span) : Result ε Span := Result.ofOption (a.join? b)

variable (finish : Span)

/-- An error about the next lexeme, or about the end if there is none. -/
def failNext {α : Type} (ts : List Lexeme) (e : TokenKind → ParseError) :
    Result (Located ParseError) α :=
  match ts with
  | [] => failAt finish (e .eof)
  | t :: _ => failAt t.span (e t.spelling.kind)

/-- The next lexeme, if it has the given spelling. -/
def take? (s : Spelling) : (ts : List Lexeme) → Option (Parsed Span ts.length)
  | [] => none
  | t :: rest => if t.spelling = s then some ⟨t.span, rest, Nat.lt_succ_self _⟩ else none

def mark (m : Mark) (ts : List Lexeme) : ParseResult Span ts.length :=
  match take? (.mark m) ts with
  | some p => .ok p
  | none => failNext finish ts (.unexpected (.token (.mark m)))

/-- Whether the next lexeme is a keyword is only known if it can be read. -/
def keyword (k : Keyword) (ts : List Lexeme) : ParseResult Span ts.length :=
  match take? (.keyword k) ts with
  | some p => .ok p
  | none =>
    if (take? (.unreadable .identifier) ts).isSome then .error .abort
    else failNext finish ts (.unexpected (.keyword k))

def ident : (ts : List Lexeme) → ParseResult Ident ts.length
  | [] => failNext finish [] (.unexpected (.token .identifier))
  | t :: rest =>
    match t.spelling with
    | .name text => .ok ⟨⟨text, t.span⟩, rest, Nat.lt_succ_self _⟩
    | .keyword k => failAt t.span (.keywordAsName k)
    | .unreadable .identifier => .error .abort
    | _ => failNext finish (t :: rest) (.unexpected (.token .identifier))

/-- The parenthesis that closes a group. -/
def groupEnd (ts : List Lexeme) : ParseResult Span ts.length :=
  match take? (.mark .closing) ts with
  | some p => .ok p
  | none => failNext finish ts fun _ => .unclosedGroup

/-- What follows an argument: a comma, or the parenthesis that ends the call. -/
def argumentEnd (ts : List Lexeme) : ParseResult (Option Span) ts.length :=
  match take? (.mark .comma) ts, take? (.mark .closing) ts with
  | some p, _ => .ok ⟨none, p.rest, p.shorter⟩
  | none, some p => .ok ⟨some p.value, p.rest, p.shorter⟩
  | none, none => failNext finish ts (.unexpectedAny [.mark .comma, .mark .closing])

/-- The operator that the next lexeme stands for. -/
def operator? : Spelling → Option Operator
  | .mark m => Operator.ofMark? m
  | _ => none

mutual

/-- An operand, and the operators after it that hold it with at least `power`. -/
def expr (power : Nat) (ts : List Lexeme) : ParseResult (Expr .parsed) ts.length := do
  let ⟨lhs, rest, _⟩ ← operand ts
  let ⟨e, rest, _⟩ ← operators power lhs rest
  return ⟨e, rest, by omega⟩
termination_by 3 * ts.length + 1

def operators (power : Nat) (lhs : Expr .parsed) (ts : List Lexeme) :
    ParseResult (Expr .parsed) (ts.length + 1) :=
  match ts with
  | [] => .ok ⟨lhs, [], Nat.lt_succ_self _⟩
  | t :: rest =>
    match operator? t.spelling with
    | none => .ok ⟨lhs, t :: rest, Nat.lt_succ_self _⟩
    | some op =>
      if op.leftPower < power then .ok ⟨lhs, t :: rest, Nat.lt_succ_self _⟩
      else do
        let ⟨rhs, rest, _⟩ ← expr op.rightPower rest
        let span ← joined lhs.span rhs.span
        let ⟨e, rest, _⟩ ← operators power (.binary op lhs rhs span ()) rest
        return ⟨e, rest, by rw [List.length_cons]; omega⟩
termination_by 3 * ts.length

/-- A literal, a variable, a call or a group. -/
def operand (ts : List Lexeme) : ParseResult (Expr .parsed) ts.length :=
  match ts with
  | [] => failNext finish [] .tokenInExpr
  | t :: rest =>
    match t.spelling with
    | .keyword .TRUE => .ok ⟨.literal (.bool true) t.span (), rest, Nat.lt_succ_self _⟩
    | .keyword .FALSE => .ok ⟨.literal (.bool false) t.span (), rest, Nat.lt_succ_self _⟩
    | .keyword k => failAt t.span (.keywordInExpr k)
    | .name text =>
      let name : Ident := ⟨text, t.span⟩
      match take? (.mark .opening) rest with
      | none => .ok ⟨.var name t.span (), rest, Nat.lt_succ_self _⟩
      | some ⟨_, rest, _⟩ => do
        let ⟨(args, close), rest, _⟩ ← arguments rest
        let span ← joined t.span close
        return ⟨.call name args () span (), rest, by rw [List.length_cons]; omega⟩
    | .integer digits => .ok ⟨.literal (.integer digits) t.span (), rest, Nat.lt_succ_self _⟩
    | .decimal digits => .ok ⟨.literal (.decimal digits) t.span (), rest, Nat.lt_succ_self _⟩
    | .string contents => .ok ⟨.literal (.string contents) t.span (), rest, Nat.lt_succ_self _⟩
    | .mark .opening => do
      let ⟨inner, rest, _⟩ ← expr 0 rest
      let ⟨close, rest, _⟩ ← groupEnd finish rest
      let span ← joined t.span close
      return ⟨.group inner span (), rest, by rw [List.length_cons]; omega⟩
    | .mark m => failAt t.span (.tokenInExpr (.mark m))
    | .unreadable _ => .error .abort
termination_by 3 * ts.length

/-- What stands between the parentheses of a call, and the span of the closing one. -/
def arguments (ts : List Lexeme) : ParseResult (List (Expr .parsed) × Span) ts.length :=
  match take? (.mark .closing) ts with
  | some ⟨close, rest, h⟩ => .ok ⟨([], close), rest, h⟩
  | none => argumentsFrom ts
termination_by 3 * ts.length + 3

/-- At least one argument. -/
def argumentsFrom (ts : List Lexeme) : ParseResult (List (Expr .parsed) × Span) ts.length := do
  let ⟨arg, rest, _⟩ ← expr 0 ts
  let ⟨close?, rest, _⟩ ← argumentEnd finish rest
  match close? with
  | some close => return ⟨([arg], close), rest, by omega⟩
  | none =>
    let ⟨(args, close), rest, _⟩ ← argumentsFrom rest
    return ⟨(arg :: args, close), rest, by omega⟩
termination_by 3 * ts.length + 2

end

/-- What follows the name and type of a declaration, up to the semicolon. -/
def initializer (ts : List Lexeme) : ParseResult (Option (Expr .parsed)) (ts.length + 1) :=
  match take? (.mark .assign) ts with
  | none => .ok ⟨none, ts, Nat.lt_succ_self _⟩
  | some ⟨_, rest, _⟩ => do
    let ⟨e, rest, _⟩ ← expr finish 0 rest
    return ⟨some e, rest, by omega⟩

/-- The part of a declaration after its keyword. -/
def declaration (start : Span) (ts : List Lexeme) : ParseResult (Stmt .parsed) ts.length := do
  let ⟨name, rest, _⟩ ← ident finish ts
  let ⟨_, rest, _⟩ ← mark finish .colon rest
  let ⟨ty, rest, _⟩ ← ident finish rest
  let ⟨initial, rest, _⟩ ← initializer finish rest
  let ⟨stop, rest, _⟩ ← mark finish .semicolon rest
  let span ← joined start stop
  return ⟨.declaration name ty initial span, rest, by omega⟩

def assignment (ts : List Lexeme) : ParseResult (Stmt .parsed) ts.length := do
  let ⟨target, rest, _⟩ ← ident finish ts
  let ⟨_, rest, _⟩ ← mark finish .assign rest
  let ⟨value, rest, _⟩ ← expr finish 0 rest
  let ⟨stop, rest, _⟩ ← mark finish .semicolon rest
  let span ← joined target.span stop
  return ⟨.assignment target value span, rest, by omega⟩

def exprStmt (ts : List Lexeme) : ParseResult (Stmt .parsed) ts.length := do
  let ⟨value, rest, _⟩ ← expr finish 0 ts
  let ⟨stop, rest, _⟩ ← mark finish .semicolon rest
  let span ← joined value.span stop
  return ⟨.expr value span, rest, by omega⟩

/-- An identifier, keyword or not, with `=` behind it. -/
def startsAssignment : List Lexeme → Bool
  | t :: u :: _ => t.spelling.kind = .identifier && u.spelling.kind = .mark .assign
  | _ => false

def startsWithAny (ks : List Keyword) : List Lexeme → Bool
  | ⟨.keyword k, _⟩ :: _ => ks.contains k
  | _ => false

mutual

def stmt (ts : List Lexeme) : ParseResult (Stmt .parsed) ts.length :=
  match ts with
  | ⟨.keyword .LET, start⟩ :: rest => do
    let ⟨s, rest, _⟩ ← declaration finish start rest
    return ⟨s, rest, by rw [List.length_cons]; omega⟩
  | ⟨.keyword .IF, start⟩ :: rest => do
    let ⟨condition, rest, _⟩ ← expr finish 0 rest
    let ⟨_, rest, _⟩ ← keyword finish .THEN rest
    let ⟨yes, rest, _⟩ ← block [.ELSE, .END] rest
    let ⟨no, rest, _⟩ ← otherwise rest
    let ⟨stop, rest, _⟩ ← keyword finish .END rest
    let span ← joined start stop
    return ⟨.branch condition yes no span, rest, by rw [List.length_cons]; omega⟩
  | ⟨.keyword .WHILE, start⟩ :: rest => do
    let ⟨condition, rest, _⟩ ← expr finish 0 rest
    let ⟨_, rest, _⟩ ← keyword finish .DO rest
    let ⟨body, rest, _⟩ ← block [.END] rest
    let ⟨stop, rest, _⟩ ← keyword finish .END rest
    let span ← joined start stop
    return ⟨.loop condition body span, rest, by rw [List.length_cons]; omega⟩
  | ⟨.unreadable .identifier, _⟩ :: _ => .error .abort
  | ts => if startsAssignment ts then assignment finish ts else exprStmt finish ts
termination_by 2 * ts.length

/-- The statements before one of the keywords or before the end. -/
def block (stops : List Keyword) (ts : List Lexeme) :
    ParseResult (Block .parsed) (ts.length + 1) :=
  if ts.isEmpty || startsWithAny stops ts then .ok ⟨[], ts, Nat.lt_succ_self _⟩
  else do
    let ⟨s, rest, _⟩ ← stmt ts
    let ⟨ss, rest, _⟩ ← block stops rest
    return ⟨s :: ss, rest, by omega⟩
termination_by 2 * ts.length + 1

/-- The second arm, which may be missing. -/
def otherwise (ts : List Lexeme) : ParseResult (Block .parsed) (ts.length + 1) :=
  match take? (.keyword .ELSE) ts with
  | none => .ok ⟨[], ts, Nat.lt_succ_self _⟩
  | some ⟨_, rest, _⟩ => do
    let ⟨no, rest, _⟩ ← block [.END] rest
    return ⟨no, rest, by omega⟩
termination_by 2 * ts.length

end

end Parser

/-- A program has at least one statement. -/
def parse (source : String) (tokens : List Token) : Result (Located ParseError) (Block .parsed) :=
  let chars := source.toList
  let reading := Reading.ofTokens chars tokens
  if reading.lexemes.isEmpty then
    match Span.ofBounds? 0 (Text.byteLength chars) with
    | some span => Parser.failAt span .emptySource
    | none => .error .abort
  else do
    let ⟨program, _, _⟩ ← Parser.block reading.finish [] reading.lexemes
    return program

/-- A lexical error is also an error of the reading as a whole. -/
def parseProgram (source : String) : Result (Located ParseError) (Block .parsed) :=
  let lexing := Lexer.lex source
  match lexing.failure? with
  | some f => .error (f.map (Located.map .lexer))
  | none => parse source lexing.tokens

end LetLang
