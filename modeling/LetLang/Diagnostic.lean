import LetLang.Failure
import LetLang.Span
import LetLang.Text.Layout

/-!
Places in a text, and messages shown with the line that they are about. Lines and columns count from
one and columns count characters; an offset after the end means the end. The carets under a line
start below the start of the span and stay on its first line.
-/

namespace LetLang

structure Position where
  line : Nat
  column : Nat
  deriving DecidableEq, Repr

namespace Position

/-- The part of the last line that a text ends with. -/
def lastLine (cs : List Char) : List Char := (cs.reverse.takeWhile (· ≠ '\n')).reverse

/-- The place that a text leads up to. -/
def after (before : List Char) : Position :=
  ⟨before.count '\n' + 1, (lastLine before).length + 1⟩

end Position

def Position.ofOffset? (source : List Char) (offset : Nat) : Option Position :=
  (Text.cutAt? source offset).map fun (before, _) => .after before

namespace Diagnostic

def trimReturns (cs : List Char) : List Char := (cs.reverse.dropWhile (· = '\r')).reverse

/-- The line on which the span starts, underlined from there to the end of the span or of the
line. It has no result if the span does not fit, an end of it is inside a character or the column is
out of reach of the padding. -/
def render? (source : List Char) (span : Span) (message : String) : Option String := do
  guard span.Fits
  let (before, rest) ← Text.cutAt? source span.lo
  let position := Position.after before
  let tail := rest.takeWhile (· ≠ '\n')
  let line := trimReturns (Position.lastLine before ++ tail)
  let room := span.hi - min span.lo (Text.byteLength source)
  let (covered, _) ← Text.cutAt? tail room
  let pad ← Text.padding? (position.column - 1)
  let number := toString position.line
  let gutter := Text.spaces number.length
  let carets := String.ofList (List.replicate (max covered.length 1) '^')
  return "error: " ++ message ++ "\n" ++
    gutter ++ "--> line " ++ number ++ ", col " ++ toString position.column ++ "\n" ++
    gutter ++ " |\n" ++
    number ++ " | " ++ String.ofList line ++ "\n" ++
    gutter ++ " | " ++ pad ++ carets

end Diagnostic

end LetLang
