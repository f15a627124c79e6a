import LetLang.Token

/-!
Texts cut into tokens. Between tokens stand blanks; each token takes the longest text of its class
from where it starts, except that a string ends at its first closing quote. The list ends with an
`eof` token, or stops before the first text that starts no token; what was found till then is kept.
-/

namespace LetLang

inductive LexError where
  | unclosedString
  | multipleDecimalPoints
  | unexpectedChar (c : Char)
  deriving DecidableEq, Repr

namespace Lexer

def isBlank (c : Char) : Bool := c = ' ' || c = '\t' || c = '\r' || c = '\n'

def isNameStart (c : Char) : Bool := c.isAlpha || c = '_'

def isNameChar (c : Char) : Bool := c.isAlphanum || c = '_'

/-- What stands at the start of a text: a token with its text and what follows, or an error about
the characters `covered`, which come after those of `before`. -/
inductive Scan where
  | token (kind : TokenKind) (text rest : List Char)
  | failure (before covered : List Char) (error : LexError)

/-- The text between two quotes; there are no escapes. The first quote is already taken. -/
def scanString (cs : List Char) : Scan :=
  match cs.dropWhile (· ≠ '"') with
  | [] => .failure [] ('"' :: cs) .unclosedString
  | quote :: rest => .token .string ('"' :: cs.takeWhile (· ≠ '"') ++ [quote]) rest

/-- A point belongs to a number only if a digit follows it. -/
def startsFraction : List Char → Bool
  | '.' :: d :: _ => d.isDigit
  | _ => false

def scanNumber (cs : List Char) : Scan :=
  let whole := cs.takeWhile Char.isDigit
  let rest := cs.dropWhile Char.isDigit
  if startsFraction rest then
    let text := whole ++ '.' :: rest.tail.takeWhile Char.isDigit
    let rest := rest.tail.dropWhile Char.isDigit
    if startsFraction rest then .failure text ['.'] .multipleDecimalPoints
    else .token .decimal text rest
  else .token .integer whole rest

def scanName (c : Char) (cs : List Char) : Scan :=
  .token .identifier (c :: cs.takeWhile isNameChar) (cs.dropWhile isNameChar)

def scanMark (c : Char) (cs : List Char) : Scan :=
  match c, cs with
  | '=', '=' :: rest => .token (.mark .equal) ['=', '='] rest
  | '!', '=' :: rest => .token (.mark .notEqual) ['!', '='] rest
  | _, _ =>
    match Mark.ofChar? c with
    | some m => .token (.mark m) [c] cs
    | none => .failure [] [c] (.unexpectedChar c)

def scan (c : Char) (cs : List Char) : Scan :=
  if c = '"' then scanString cs
  else if c.isDigit then scanNumber (c :: cs)
  else if isNameStart c then scanName c cs
  else scanMark c cs

theorem scanString_eq_token {cs text rest : List Char} {kind : TokenKind}
    (h : scanString cs = .token kind text rest) : '"' :: cs = text ++ rest ∧ text ≠ [] := by
  unfold scanString at h
  split at h
  · cases h
  · next quote after hq =>
    cases h
    have := List.takeWhile_append_dropWhile (p := fun c => decide (c ≠ '"')) (l := cs)
    rw [hq] at this
    exact ⟨by simpa using this.symm, by simp⟩

theorem takeWhile_isDigit_ne_nil {c : Char} {cs : List Char} (h : c.isDigit) :
    (c :: cs).takeWhile Char.isDigit ≠ [] := by
  simp [h]

theorem scanNumber_eq_token {c : Char} {cs text rest : List Char} {kind : TokenKind}
    (hc : c.isDigit) (h : scanNumber (c :: cs) = .token kind text rest) :
    c :: cs = text ++ rest ∧ text ≠ [] := by
  have hcut := List.takeWhile_append_dropWhile (p := Char.isDigit) (l := c :: cs)
  unfold scanNumber at h
  dsimp only at h
  split at h
  · next hf =>
    split at h
    · cases h
    · cases h
      refine ⟨?_, by simp⟩
      -- what follows the whole part opens with the point
      obtain ⟨tail, ht⟩ : ∃ tail, (c :: cs).dropWhile Char.isDigit = '.' :: tail := by
        unfold startsFraction at hf
        split at hf
        · next ht => exact ⟨_, ht⟩
        · cases hf
      rw [ht] at hcut ⊢
      simp only [List.tail_cons, List.append_assoc, List.cons_append,
        List.takeWhile_append_dropWhile]
      exact hcut.symm
  · cases h
    exact ⟨hcut.symm, takeWhile_isDigit_ne_nil hc⟩

theorem scanMark_eq_token {c : Char} {cs text rest : List Char} {kind : TokenKind}
    (h : scanMark c cs = .token kind text rest) : c :: cs = text ++ rest ∧ text ≠ [] := by
  unfold scanMark at h
  split at h
  · cases h; simp
  · cases h; simp
  · split at h
    · cases h; simp
    · cases h

/-- A token takes a nonempty part of the text, from its start. -/
theorem scan_eq_token {c : Char} {cs text rest : List Char} {kind : TokenKind}
    (h : scan c cs = .token kind text rest) : c :: cs = text ++ rest ∧ text ≠ [] := by
  unfold scan at h
  split at h
  · next hc => exact hc ▸ scanString_eq_token h
  split at h
  · next hd => exact scanNumber_eq_token hd h
  split at h
  · cases h; simp [List.takeWhile_append_dropWhile]
  · exact scanMark_eq_token h

theorem length_lt_of_scan {c : Char} {cs text rest : List Char} {kind : TokenKind}
    (h : scan c cs = .token kind text rest) : rest.length < (c :: cs).length := by
  obtain ⟨hs, hne⟩ := scan_eq_token h
  have := List.length_pos_iff.2 hne
  rw [hs, List.length_append]
  omega

end Lexer

/-- The tokens of a text, and why they stop where they do if it is not at the end. -/
structure Lexing where
  tokens : List Token
  failure? : Option (Failure (Located LexError))
  deriving DecidableEq, Repr

namespace Lexing

def push (t : Token) (l : Lexing) : Lexing := { l with tokens := t :: l.tokens }

def stop (f : Failure (Located LexError)) : Lexing := ⟨[], some f⟩

end Lexing

namespace Lexer

/-- The tokens of the text that starts at `offset`. -/
def lexFrom (offset : Nat) : List Char → Lexing
  | [] =>
    match Span.ofBounds? offset offset with
    | some span => ⟨[⟨.eof, span⟩], none⟩
    | none => .stop .abort
  | c :: cs =>
    if isBlank c then lexFrom (offset + c.utf8Size) cs
    else
      match h : scan c cs with
      | .token kind text rest =>
        have : rest.length < (c :: cs).length := length_lt_of_scan h
        let after := offset + Text.byteLength text
        match Span.ofBounds? offset after with
        | some span => (lexFrom after rest).push ⟨kind, span⟩
        | none => .stop .abort
      | .failure before covered error =>
        let lo := offset + Text.byteLength before
        match Span.ofBounds? lo (lo + Text.byteLength covered) with
        | some span => .stop (.error (span.locate error))
        | none => .stop .abort
termination_by cs => cs.length
decreasing_by all_goals simp only [List.length_cons] at *; omega

def lex (source : String) : Lexing := lexFrom 0 source.toList

/-- Tokens are only ever put into an empty buffer; one in use is left as it is. -/
def lexInto (buffer : List Token) (source : String) : Lexing :=
  if buffer.isEmpty then lex source else ⟨buffer, some .abort⟩

end Lexer

end LetLang
