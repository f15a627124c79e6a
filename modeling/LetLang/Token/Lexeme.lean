import LetLang.Token

/-!
Tokens read against their source. A lexeme says what its token spells: a keyword, a name, the text
of a literal, or a mark. A token whose text cannot be cut out of the source is `unreadable`; this is
no failure until the text is needed.
-/

namespace LetLang

inductive Spelling where
  | keyword (k : Keyword)
  | name (text : String)
  | integer (digits : String)
  | decimal (digits : String)
  | string (contents : String)
  | mark (m : Mark)
  | unreadable (kind : TokenKind)
  deriving DecidableEq, Repr

namespace Spelling

def kind : Spelling → TokenKind
  | keyword _ | name _ => .identifier
  | integer _ => .integer
  | decimal _ => .decimal
  | string _ => .string
  | mark m => .mark m
  | unreadable k => k

def ofIdentifier (text : String) : Spelling :=
  match Keyword.ofText? text with
  | some k => keyword k
  | none => name text

end Spelling

structure Lexeme where
  spelling : Spelling
  span : Span
  deriving DecidableEq, Repr

namespace Token

/-- What is between the quotes. -/
def contents? (source : List Char) (t : Token) : Option String := do
  let inner ← t.span.shift? 1 (-1)
  let text ← inner.slice? source
  return String.ofList text

def spelling (source : List Char) (t : Token) : Spelling :=
  let read (text? : Option String) (f : String → Spelling) : Spelling :=
    match text? with
    | some text => f text
    | none => .unreadable t.kind
  match t.kind with
  | .identifier => read (t.text? source) .ofIdentifier
  | .integer => read (t.text? source) .integer
  | .decimal => read (t.text? source) .decimal
  | .string => read (t.contents? source) .string
  | .mark m => .mark m
  | .eof => .unreadable .eof

def lexeme (source : List Char) (t : Token) : Lexeme := ⟨t.spelling source, t.span⟩

theorem kind_spelling (source : List Char) (t : Token) : (t.spelling source).kind = t.kind := by
  obtain ⟨kind, span⟩ := t
  unfold spelling
  cases kind <;> simp only <;> (try split) <;> try rfl
  simp only [Spelling.ofIdentifier]
  split <;> rfl

end Token

/-- A token list as it is read: the lexemes before the first `eof`, and the place where they end. -/
structure Reading where
  lexemes : List Lexeme
  finish : Span
  deriving DecidableEq, Repr

/-- A list without `eof` ends at the end of the source. -/
def Reading.ofTokens (source : List Char) (tokens : List Token) : Reading where
  lexemes := (tokens.takeWhile (!Token.isEof ·)).map (Token.lexeme source)
  finish :=
    match tokens.find? Token.isEof with
    | some t => t.span
    | none => ⟨Text.byteLength source, 0⟩

end LetLang
