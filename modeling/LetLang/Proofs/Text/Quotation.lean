import LetLang.Proofs.Text.Positions
import Mathlib.Data.List.DropRight

/-!
The line that a message is shown with. It is found by splitting the source at its line feeds, and the
carets stand below the characters of that line that the span covers. What is printed are five lines
with these in them, provided that the padding in front of the carets is not too wide.
-/

namespace LetLang

open Text (Ended IsBoundary byteLength cutAt?_of_le lineStart lines maxWidth numeral upTo)

/-- The part of a source that a message is shown with. Lines and columns count from one. -/
structure Quotation where
  number : Nat
  line : List Char
  column : Nat
  /-- How many characters of the line are covered. -/
  width : Nat

namespace Quotation

/-- The line on which the span starts. A span beyond the end of the source is one at its end. -/
def ofSpan (source : List Char) (span : Span) : Quotation :=
  let lo := min span.lo (byteLength source)
  let hi := min span.hi (byteLength source)
  let index := (upTo lo source).count '\n'
  let line := (lines source).getD index []
  let before := (upTo (lo - lineStart source index) line).length
  let through := (upTo (hi - lineStart source index) line).length
  ⟨index + 1, line, before + 1, through - before⟩

/-- The message and the quoted line, with at least one caret below it. -/
def shown (q : Quotation) (message : String) : List String :=
  let gutter := Text.spaces (numeral q.number).length
  ["error: " ++ message,
    gutter ++ "--> line " ++ toString q.number ++ ", col " ++ toString q.column,
    gutter ++ " |",
    toString q.number ++ " | " ++ String.ofList (q.line.rdropWhile (· = '\r')),
    gutter ++ " | " ++ Text.spaces (q.column - 1) ++
      String.ofList (List.replicate (max 1 q.width) '^')]

variable {earlier last rest : List Char} {span : Span}

/-- A span that starts behind these lines and characters. -/
theorem ofSpan_of_start (hended : Ended earlier) (hlast : '\n' ∉ last)
    (hlo : byteLength (earlier ++ last) = min span.lo (byteLength (earlier ++ (last ++ rest)))) :
    ofSpan (earlier ++ (last ++ rest)) span =
      ⟨earlier.count '\n' + 1, last ++ rest.takeWhile (· ≠ '\n'), last.length + 1,
        (upTo (span.hi - byteLength (earlier ++ last)) (rest.takeWhile (· ≠ '\n'))).length⟩ := by
  have hbefore : upTo (byteLength (earlier ++ last)) (earlier ++ (last ++ rest)) =
      earlier ++ last := by
    rw [← List.append_assoc, Text.upTo_append]
  have hcount : (earlier ++ last).count '\n' = earlier.count '\n' := by
    rw [List.count_append, List.count_eq_zero.2 hlast, Nat.add_zero]
  have hline := Text.line_after hended (last ++ rest)
  rw [List.takeWhile_append_of_pos (Text.forall_ne hlast)] at hline
  have hstart : byteLength (earlier ++ last) - byteLength earlier = byteLength last := by
    rw [Text.byteLength_append, Nat.add_sub_cancel_left]
  have hend : min span.hi (byteLength (earlier ++ (last ++ rest))) - byteLength earlier =
      byteLength last + min (span.hi - byteLength (earlier ++ last)) (byteLength rest) := by
    have : span.lo ≤ span.hi := Nat.le_add_right ..
    simp only [Text.byteLength_append] at hlo ⊢
    omega
  simp only [ofSpan, ← hlo, hbefore, hcount, List.getD_eq_getElem?_getD, hline, Option.getD_some,
    Text.lineStart_after hended, hstart, Text.upTo_append, hend, Text.upTo_append_add,
    List.length_append, Nat.add_sub_cancel_left,
    Text.upTo_min (Text.byteLength_takeWhile_le rest _)]

/-- What is shown, as it is put together. -/
theorem intercalate_shown (q : Quotation) (message : String) :
    String.intercalate "\n" (q.shown message) =
      "error: " ++ message ++ "\n" ++
        Text.spaces (toString q.number).length ++ "--> line " ++ toString q.number ++ ", col " ++
          toString q.column ++ "\n" ++
        Text.spaces (toString q.number).length ++ " |\n" ++
        toString q.number ++ " | " ++ String.ofList (Diagnostic.trimReturns q.line) ++ "\n" ++
        Text.spaces (toString q.number).length ++ " | " ++ Text.spaces (q.column - 1) ++
          String.ofList (List.replicate (max q.width 1) '^') := by
  have hgutter : (numeral q.number).length = (toString q.number).length := by
    rw [Nat.toString_eq_ofList_toDigits, String.length_ofList, numeral]
  have htrim : Diagnostic.trimReturns q.line = q.line.rdropWhile (· = '\r') := rfl
  have hjoin (a b c d e : String) : String.intercalate "\n" [a, b, c, d, e] =
      a ++ "\n" ++ b ++ "\n" ++ c ++ "\n" ++ d ++ "\n" ++ e := rfl
  have hrule : " |\n" = " |" ++ "\n" := rfl
  rw [← hgutter, htrim, Nat.max_comm, shown, hjoin, hrule]
  simp only [String.append_assoc]

theorem newline_not_mem_toDigits (n : Nat) : '\n' ∉ Nat.toDigits 10 n :=
  fun h => absurd (Text.isDigit_of_mem (Text.isDigits_numeral n) h) (by decide)

/-- No part of what is shown is more than a line. -/
theorem newline_not_mem_shown {q : Quotation} {message : String} (hmessage : '\n' ∉ message.toList)
    (hline : '\n' ∉ q.line) : ∀ l ∈ (q.shown message).map String.toList, '\n' ∉ l := by
  have htrimmed : '\n' ∉ q.line.rdropWhile (· = '\r') := fun h =>
    hline ((List.rdropWhile_prefix _ _).subset h)
  simp [shown, Text.spaces, hmessage, htrimmed, newline_not_mem_toDigits]

theorem lines_shown {q : Quotation} {message : String} (hmessage : '\n' ∉ message.toList)
    (hline : '\n' ∉ q.line) :
    lines (String.intercalate "\n" (q.shown message)).toList =
      (q.shown message).map String.toList := by
  rw [String.toList_intercalate]
  exact List.splitOn_intercalate '\n' (newline_not_mem_shown hmessage hline) (List.cons_ne_nil _ _)

end Quotation

namespace Diagnostic

open Quotation (ofSpan)

/-- Every source, every span that fits and ends between characters, as far as its ends are in the
source, and every message of one line. Up to the width that padding can have, a message is shown with
the line on which the span starts, in five lines. -/
theorem render?_shows (source : List Char) (span : Span) (message : String) (hfits : span.Fits)
    (hmessage : '\n' ∉ message.toList)
    (hlo : IsBoundary source (min span.lo (byteLength source)))
    (hhi : IsBoundary source (min span.hi (byteLength source)))
    (hwidth : (ofSpan source span).column - 1 ≤ maxWidth) :
    (lines source)[(ofSpan source span).number - 1]? = some (ofSpan source span).line ∧
      ∃ text, render? source span message = some text ∧
        lines text.toList = ((ofSpan source span).shown message).map String.toList := by
  obtain ⟨before, rest, hsource, hbefore⟩ := hlo
  obtain ⟨earlier, last, rfl, hended, hlast⟩ := Position.exists_ended before
  have hcut : Text.cutAt? source span.lo = some (earlier ++ last, rest) := by
    rw [Text.cutAt?, ← hbefore, hsource, Text.splitBytes?_append]
  have hroom : IsBoundary rest (span.hi - byteLength (earlier ++ last)) ∨
      byteLength rest ≤ span.hi - byteLength (earlier ++ last) := by
    have hle : span.lo ≤ span.hi := Nat.le_add_right ..
    have hlen := congrArg byteLength hsource
    rw [Text.byteLength_append] at hlen
    obtain ⟨upto, after, hupto, hto⟩ := hhi
    rcases Nat.le_total span.hi (byteLength source) with hin | hout
    · obtain ⟨mid, rfl, hrest⟩ := Text.exists_gap (hsource.symm.trans hupto) (by omega)
      rw [Text.byteLength_append] at hto
      exact .inl ⟨mid, after, hrest, by omega⟩
    · exact .inr (by omega)
  obtain ⟨⟨covered, more⟩, hcovered⟩ := Text.exists_cutAt?_takeWhile hroom (· ≠ '\n')
  rw [List.append_assoc] at hsource
  subst hsource
  have hline := Text.line_after hended (last ++ rest)
  rw [List.takeWhile_append_of_pos (Text.forall_ne hlast)] at hline
  rw [Quotation.ofSpan_of_start hended hlast hbefore] at hwidth ⊢
  refine ⟨hline, _, ?_, Quotation.lines_shown hmessage ?_⟩
  · rw [render?, show (guard span.Fits : Option Unit) = some () from if_pos hfits]
    simp only [Option.bind_eq_bind, Option.bind_some, hcut, ← hbefore, hcovered,
      Position.after_append hended hlast, Position.lastLine_append hended hlast, Text.padding?,
      if_pos hwidth, Text.eq_upTo_of_cutAt? hcovered]
    rw [Quotation.intercalate_shown]
    rfl
  · intro h
    exact (List.mem_append.1 h).elim hlast (Text.not_mem_takeWhile_ne rest _)

/-- A span that goes on behind its line, and behind the source. -/
theorem render?_shows_of_long_span :
    Span.Fits ⟨8, 100⟩ ∧ '\n' ∉ "bad".toList ∧
      IsBoundary "one\nté = 2\r\nend".toList 8 ∧ IsBoundary "one\nté = 2\r\nend".toList 16 ∧
      (ofSpan "one\nté = 2\r\nend".toList ⟨8, 100⟩).column = 4 ∧
      ∃ text, render? "one\nté = 2\r\nend".toList ⟨8, 100⟩ "bad" = some text ∧
        lines text.toList = ["error: bad".toList, " --> line 2, col 4".toList, "  |".toList,
          "2 | té = 2".toList, "  |    ^^^^".toList] := by
  have hlo : IsBoundary "one\nté = 2\r\nend".toList 8 :=
    ⟨"one\nté ".toList, "= 2\r\nend".toList, by decide, by decide⟩
  have hhi : IsBoundary "one\nté = 2\r\nend".toList 16 :=
    ⟨"one\nté = 2\r\nend".toList, [], by decide, by decide⟩
  obtain ⟨-, htext⟩ := render?_shows "one\nté = 2\r\nend".toList ⟨8, 100⟩ "bad" (by decide)
    (by decide) hlo hhi (by decide)
  exact ⟨by decide, by decide, hlo, hhi, by decide, htext⟩

end Diagnostic

end LetLang
