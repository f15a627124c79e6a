import LetLang.Failure
import LetLang.Span

/-!
The words of a program. A keyword is spelled like a name, so it has no kind of its own: it is an
identifier whose text is one of the nine.
-/

namespace LetLang

inductive Mark where
  | assign | equal | bang | notEqual | colon | semicolon | comma | opening | closing
  | plus | minus | star | slash
  deriving DecidableEq, Repr

namespace Mark

def name : Mark → String
  | assign => "Assign"
  | equal => "EqEq"
  | bang => "Bang"
  | notEqual => "BangEq"
  | colon => "Colon"
  | semicolon => "Semicolon"
  | comma => "Comma"
  | opening => "LParen"
  | closing => "RParen"
  | plus => "Plus"
  | minus => "Minus"
  | star => "Star"
  | slash => "Slash"

def spelling : Mark → List Char
  | assign => ['=']
  | equal => ['=', '=']
  | bang => ['!']
  | notEqual => ['!', '=']
  | colon => [':']
  | semicolon => [';']
  | comma => [',']
  | opening => ['(']
  | closing => [')']
  | plus => ['+']
  | minus => ['-']
  | star => ['*']
  | slash => ['/']

def ofChar? : Char → Option Mark
  | '=' => some assign
  | '!' => some bang
  | ':' => some colon
  | ';' => some semicolon
  | ',' => some comma
  | '(' => some opening
  | ')' => some closing
  | '+' => some plus
  | '-' => some minus
  | '*' => some star
  | '/' => some slash
  | _ => none

theorem spelling_injective {m n : Mark} (h : m.spelling = n.spelling) : m = n := by
  cases m <;> cases n <;> first | rfl | simp [spelling] at h

theorem spelling_of_ofChar? {c : Char} {m : Mark} (h : ofChar? c = some m) :
    m.spelling = [c] := by
  unfold ofChar? at h
  split at h <;> simp at h <;> subst h <;> rfl

end Mark

inductive TokenKind where
  | identifier
  | integer
  | decimal
  | string
  | mark (m : Mark)
  | eof
  deriving DecidableEq, Repr

namespace TokenKind

def name : TokenKind → String
  | identifier => "Identifier"
  | integer => "Integer"
  | decimal => "Decimal"
  | string => "String"
  | mark m => m.name
  | eof => "Eof"

end TokenKind

inductive Keyword where
  | LET | IF | THEN | ELSE | END | WHILE | DO | TRUE | FALSE
  deriving DecidableEq, Repr

namespace Keyword

def all : List Keyword := [LET, IF, THEN, ELSE, END, WHILE, DO, TRUE, FALSE]

def spelling : Keyword → String
  | LET => "LET"
  | IF => "IF"
  | THEN => "THEN"
  | ELSE => "ELSE"
  | END => "END"
  | WHILE => "WHILE"
  | DO => "DO"
  | TRUE => "TRUE"
  | FALSE => "FALSE"

/-- Case matters. -/
def ofText? (s : String) : Option Keyword := all.find? fun k => k.spelling == s

theorem ofText?_spelling (k : Keyword) : ofText? k.spelling = some k := by
  cases k <;> decide

theorem spelling_of_ofText? {s : String} {k : Keyword} (h : ofText? s = some k) :
    k.spelling = s := by
  simpa using List.find?_some h

end Keyword

structure Token where
  kind : TokenKind
  span : Span
  deriving DecidableEq, Repr

namespace Token

def isEof (t : Token) : Bool := t.kind = .eof

def describe (t : Token) : String := "Token(" ++ t.kind.name ++ ", " ++ t.span.display ++ ")"

def text? (source : List Char) (t : Token) : Option String :=
  (t.span.slice? source).map String.ofList

/-- Only an identifier is looked at; the text of any other token is not cut out. -/
def keyword? {ε : Type} (source : List Char) (t : Token) : Result ε (Option Keyword) :=
  if t.kind = .identifier then
    match t.text? source with
    | some s => .ok (Keyword.ofText? s)
    | none => .error .abort
  else .ok none

end Token

end LetLang
