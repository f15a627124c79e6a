import LetLang.Tree.Parser

/-!
The parser with a cursor. It keeps all tokens and a place among them, looks at the token there or at
the one behind it, and goes on from a token unless that is an `eof`; behind the last token it sees
an `eof` at the end of the source. Its calls are as deep as the tokens are nested, so they are given
a depth. The cursor also notes the furthest place that is looked at, and counts steps: each look at
a token, each expression, operand or statement that is begun, and each turn of a loop.
-/

namespace LetLang

structure Cursor where
  place : Nat
  furthest : Nat
  steps : Nat

/-- What is done with a cursor. A failure leaves it where it is, and there is no result at all if the
depth does not suffice. -/
abbrev Walk (α : Type) := ExceptT (Failure (Located ParseError)) (StateT Cursor Option) α

theorem Walk.run_bind {α β : Type} (w : Walk α) (f : α → Walk β) (c : Cursor) :
    (w >>= f).run.run c = match w.run.run c with
      | none => none
      | some (.ok a, c') => (f a).run.run c'
      | some (.error e, c') => some (.error e, c') := by
  rw [ExceptT.run_bind, StateT.run_bind]
  cases w.run.run c with
  | none => rfl
  | some x =>
    obtain ⟨_ | _, _⟩ := x <;> rfl

structure Tape where
  source : List Char
  tokens : List Token

namespace Tape

def tooDeep {α : Type} : Walk α := ExceptT.mk fun _ => none

/-- A result that the cursor has nothing to do with. -/
def give {α : Type} (r : Result (Located ParseError) α) : Walk α := ExceptT.mk (pure r)

def failAt {α : Type} (span : Span) (e : ParseError) : Walk α := give (Parser.failAt span e)

def joined (a b : Span) : Walk Span := give (Parser.joined a b)

def tick : Walk Unit := modify fun c => { c with steps := c.steps + 1 }

variable (tape : Tape)

def tokenAt (i : Nat) : Token :=
  tape.tokens[i]?.getD ⟨.eof, ⟨Text.byteLength tape.source, 0⟩⟩

def peek (ahead : Nat) : Walk Token := do
  let c ← get
  set { c with furthest := max c.furthest (c.place + ahead), steps := c.steps + 1 }
  return tape.tokenAt (c.place + ahead)

/-- An `eof` is never left behind. -/
def advance : Walk Token := do
  let t ← tape.peek 0
  unless t.isEof do modify fun c => { c with place := c.place + 1 }
  return t

def isNext (kind : TokenKind) : Walk Bool := do
  let t ← tape.peek 0
  return t.kind = kind

def keyword? (t : Token) : Walk (Option Keyword) := give (t.keyword? tape.source)

def text (t : Token) : Walk String := give (Result.ofOption (t.text? tape.source))

def contents (t : Token) : Walk String := give (Result.ofOption (t.contents? tape.source))

def take (kind : TokenKind) : Walk Bool := do
  if ← tape.isNext kind then
    let _ ← tape.advance
    return true
  else
    return false

def takeKeyword (k : Keyword) : Walk Bool := do
  let t ← tape.peek 0
  if (← tape.keyword? t) = some k then
    let _ ← tape.advance
    return true
  else
    return false

def consume (kind : TokenKind) : Walk Token := do
  let t ← tape.peek 0
  if t.kind = kind then
    let _ ← tape.advance
    return t
  else
    failAt t.span (.unexpected (.token kind) t.kind)

def consumeKeyword (k : Keyword) : Walk Token := do
  let t ← tape.peek 0
  if (← tape.keyword? t) = some k then
    let _ ← tape.advance
    return t
  else
    failAt t.span (.unexpected (.keyword k) t.kind)

def identOf (t : Token) : Walk Ident := do
  let name ← tape.text t
  return ⟨name, t.span⟩

def ident : Walk Ident := do
  let t ← tape.consume .identifier
  match ← tape.keyword? t with
  | some k => failAt t.span (.keywordAsName k)
  | none => tape.identOf t

def operator? : TokenKind → Option Operator
  | .mark m => Operator.ofMark? m
  | _ => none

mutual

def expr (depth power : Nat) : Walk (Expr .parsed) :=
  match depth with
  | 0 => tooDeep
  | depth + 1 => do
    tick
    let t ← tape.advance
    let lhs ← operand depth t
    operators depth power lhs

def operators (depth power : Nat) (lhs : Expr .parsed) : Walk (Expr .parsed) :=
  match depth with
  | 0 => tooDeep
  | depth + 1 => do
    tick
    let t ← tape.peek 0
    match operator? t.kind with
    | none => return lhs
    | some op =>
      if op.leftPower < power then
        return lhs
      else
        let _ ← tape.advance
        let rhs ← expr depth op.rightPower
        let span ← joined lhs.span rhs.span
        operators depth power (.binary op lhs rhs span ())

/-- An operand that starts with a token that is left behind already. -/
def operand (depth : Nat) (t : Token) : Walk (Expr .parsed) :=
  match depth with
  | 0 => tooDeep
  | depth + 1 => do
    tick
    match t.kind with
    | .identifier =>
      match ← tape.keyword? t with
      | some .TRUE => return .literal (.bool true) t.span ()
      | some .FALSE => return .literal (.bool false) t.span ()
      | some k => failAt t.span (.keywordInExpr k)
      | none =>
        let name ← tape.identOf t
        if ← tape.take (.mark .opening) then
          let args ← arguments depth
          let stop ← tape.consume (.mark .closing)
          let span ← joined t.span stop.span
          return .call name args () span ()
        else
          return .var name t.span ()
    | .integer =>
      let digits ← tape.text t
      return .literal (.integer digits) t.span ()
    | .decimal =>
      let digits ← tape.text t
      return .literal (.decimal digits) t.span ()
    | .string =>
      let contents ← tape.contents t
      return .literal (.string contents) t.span ()
    | .mark .opening =>
      let inner ← expr depth 0
      let current ← tape.peek 0
      if current.kind ≠ .mark .closing then
        failAt current.span .unclosedGroup
      else
        let _ ← tape.advance
        let span ← joined t.span current.span
        return .group inner span ()
    | kind => failAt t.span (.tokenInExpr kind)

/-- What stands between the parentheses of a call, without the closing one. -/
def arguments (depth : Nat) : Walk (List (Expr .parsed)) :=
  match depth with
  | 0 => tooDeep
  | depth + 1 => do
    if ← tape.isNext (.mark .closing) then
      return []
    else
      argumentsFrom depth

def argumentsFrom (depth : Nat) : Walk (List (Expr .parsed)) :=
  match depth with
  | 0 => tooDeep
  | depth + 1 => do
    tick
    let arg ← expr depth 0
    let t ← tape.peek 0
    if t.kind = .mark .comma then
      let _ ← tape.advance
      let args ← argumentsFrom depth
      return arg :: args
    else if t.kind = .mark .closing then
      return [arg]
    else
      failAt t.span (.unexpectedAny [.mark .comma, .mark .closing] t.kind)

end

def initializer (depth : Nat) : Walk (Option (Expr .parsed)) := do
  if ← tape.take (.mark .assign) then
    let e ← tape.expr depth 0
    return some e
  else
    return none

def declaration (depth : Nat) : Walk (Stmt .parsed) := do
  let start ← tape.consumeKeyword .LET
  let name ← tape.ident
  let _ ← tape.consume (.mark .colon)
  let ty ← tape.ident
  let initial ← tape.initializer depth
  let stop ← tape.consume (.mark .semicolon)
  let span ← joined start.span stop.span
  return .declaration name ty initial span

def assignment (depth : Nat) : Walk (Stmt .parsed) := do
  let target ← tape.ident
  let _ ← tape.consume (.mark .assign)
  let value ← tape.expr depth 0
  let stop ← tape.consume (.mark .semicolon)
  let span ← joined target.span stop.span
  return .assignment target value span

def exprStmt (depth : Nat) : Walk (Stmt .parsed) := do
  let value ← tape.expr depth 0
  let stop ← tape.consume (.mark .semicolon)
  let span ← joined value.span stop.span
  return .expr value span

/-- The token behind an identifier is looked at, and no other. -/
def startsAssignment (t : Token) : Walk Bool :=
  if t.kind = .identifier then do
    let u ← tape.peek 1
    return u.kind = .mark .assign
  else
    return false

/-- A keyword that the statements of a block end at, or the end. -/
def endsBlock (stops : List Keyword) : Walk Bool := do
  let t ← tape.peek 0
  let k? ← tape.keyword? t
  return k?.any stops.contains || t.isEof

mutual

def stmt (depth : Nat) : Walk (Stmt .parsed) :=
  match depth with
  | 0 => tooDeep
  | depth + 1 => do
    tick
    let t ← tape.peek 0
    match ← tape.keyword? t with
    | some .LET => tape.declaration depth
    | some .IF => branch depth
    | some .WHILE => loop depth
    | _ =>
      if ← tape.startsAssignment t then
        tape.assignment depth
      else
        tape.exprStmt depth

def branch (depth : Nat) : Walk (Stmt .parsed) :=
  match depth with
  | 0 => tooDeep
  | depth + 1 => do
    let start ← tape.consumeKeyword .IF
    let condition ← tape.expr depth 0
    let _ ← tape.consumeKeyword .THEN
    let yes ← block depth [.ELSE, .END]
    let no ← otherwise depth
    let stop ← tape.consumeKeyword .END
    let span ← joined start.span stop.span
    return .branch condition yes no span

def otherwise (depth : Nat) : Walk (Block .parsed) :=
  match depth with
  | 0 => tooDeep
  | depth + 1 => do
    if ← tape.takeKeyword .ELSE then
      block depth [.END]
    else
      return []

def loop (depth : Nat) : Walk (Stmt .parsed) :=
  match depth with
  | 0 => tooDeep
  | depth + 1 => do
    let start ← tape.consumeKeyword .WHILE
    let condition ← tape.expr depth 0
    let _ ← tape.consumeKeyword .DO
    let body ← block depth [.END]
    let stop ← tape.consumeKeyword .END
    let span ← joined start.span stop.span
    return .loop condition body span

def block (depth : Nat) (stops : List Keyword) : Walk (Block .parsed) :=
  match depth with
  | 0 => tooDeep
  | depth + 1 => do
    tick
    if ← tape.endsBlock stops then
      return []
    else
      let s ← stmt depth
      let ss ← block depth stops
      return s :: ss

end

/-- The statements before the end. -/
def statements (depth : Nat) : Walk (Block .parsed) :=
  match depth with
  | 0 => tooDeep
  | depth + 1 => do
    tick
    if ← tape.isNext .eof then
      return []
    else
      let s ← tape.stmt depth
      let ss ← statements depth
      return s :: ss

def program (depth : Nat) : Walk (Block .parsed) := do
  let ss ← tape.statements depth
  if ss.isEmpty then
    let span ← give (Result.ofOption (Span.ofBounds? 0 (Text.byteLength tape.source)))
    failAt span .emptySource
  else
    return ss

end Tape

end LetLang
