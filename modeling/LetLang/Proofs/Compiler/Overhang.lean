import LetLang.Compiler
import LetLang.Proofs.Text.Quotation

/-!
How far the carets go. The line that an error is shown with is printed without the carriage returns
at its end, but the carets are counted on the line as it stands in the source. So they stay below
the printed text, unless the span goes on to such a carriage return.
-/

namespace LetLang

open Text (Ended byteLength lines)

/-- The characters that are left lie within the first part if and only if all of the second part are
dropped. -/
theorem Text.length_rdropWhile_append_le_iff (as bs : List Char) (p : Char → Bool) :
    ((as ++ bs).rdropWhile p).length ≤ as.length ↔ ∀ c ∈ bs, p c := by
  induction bs using List.reverseRecOn with
  | nil => simpa using (List.rdropWhile_prefix p as).length_le
  | append_singleton bs c ih =>
    rw [← List.append_assoc, List.rdropWhile_concat]
    split
    · next hc =>
      rw [ih]
      simp [or_imp, forall_and, hc]
    · next hc =>
      refine iff_of_false ?_ fun h => hc (h c (by simp))
      simp only [List.length_append, List.length_singleton]
      omega

namespace Quotation

/-- The quoted line as it is printed. -/
def printed (q : Quotation) : List Char := q.line.rdropWhile (· = '\r')

/-- One caret is drawn in any case. -/
def carets (q : Quotation) : Nat := max 1 q.width

/-- The carets end no later than the printed line, if it is not for the first one. -/
def Underlines (q : Quotation) : Prop := q.column - 1 + q.carets ≤ max q.printed.length q.column

instance (q : Quotation) : Decidable q.Underlines := inferInstanceAs (Decidable (_ ≤ _))

/-- Two or more characters of the line are covered, and the last of them is one of the carriage
returns that the line ends with. -/
def Overhangs (q : Quotation) : Prop :=
  ∃ before covered returns, q.line = before ++ (covered ++ '\r' :: returns) ∧
    before.length + 1 = q.column ∧ covered.length + 1 = q.width ∧ covered ≠ [] ∧
    ∀ c ∈ returns, c = '\r'

/-- The covered characters follow those before the column. -/
structure Covers (q : Quotation) (before covered after : List Char) : Prop where
  line : q.line = before ++ (covered ++ after)
  column : before.length + 1 = q.column
  width : covered.length = q.width

variable {q : Quotation} {before covered after : List Char}

theorem Covers.carets_within_line (h : q.Covers before covered after) :
    q.column - 1 + q.carets ≤ max q.line.length q.column := by
  rw [carets, h.line, ← h.column, ← h.width]
  simp only [List.length_append]
  omega

theorem Covers.underlines_iff (h : q.Covers before covered after) :
    q.Underlines ↔ ¬ q.Overhangs := by
  obtain ⟨hline, hcolumn, hwidth⟩ := h
  constructor
  · rintro hunder ⟨before', covered', returns, hline', hcolumn', hwidth', hne, hreturns⟩
    -- all from the last covered character on is left out of the printed line
    have hprinted : q.printed.length ≤ (before' ++ covered').length := by
      rw [printed, hline', ← List.append_assoc, Text.length_rdropWhile_append_le_iff]
      simpa using hreturns
    have hpos := List.length_pos_iff.2 hne
    rw [List.length_append] at hprinted
    rw [Underlines, carets] at hunder
    omega
  · intro hover
    rw [Underlines, carets]
    rcases covered.eq_nil_or_concat' with rfl | ⟨init, c, rfl⟩
    · rw [List.length_nil] at hwidth
      omega
    rw [List.length_append, List.length_singleton] at hwidth
    by_cases hinit : init = []
    · rw [hinit, List.length_nil] at hwidth
      omega
    -- two are covered, so some character from the last of them on is printed
    have hprinted : (before ++ init).length < q.printed.length := by
      rw [← Nat.not_le, printed, hline, List.append_assoc, ← List.append_assoc before init,
        Text.length_rdropWhile_append_le_iff]
      intro hreturns
      obtain ⟨hc, hafter⟩ : c = '\r' ∧ ∀ d ∈ after, d = '\r' := by simpa using hreturns
      exact hover ⟨before, init, after, by simp [hline, hc], hcolumn, hwidth, hinit, hafter⟩
    rw [List.length_append] at hprinted
    omega

end Quotation

namespace Diagnostic

open Quotation (ofSpan)

/-- What is shown is what is quoted for the span, without a condition on the span or the message. -/
theorem shown_of_render? {source : List Char} {span : Span} {message text : String}
    (h : render? source span message = some text) :
    (lines source)[(ofSpan source span).number - 1]? = some (ofSpan source span).line ∧
      text = String.intercalate "\n" ((ofSpan source span).shown message) ∧
      ∃ before covered after, (ofSpan source span).Covers before covered after := by
  rw [render?] at h
  obtain ⟨-, -, h⟩ := Option.bind_eq_some_iff.1 h
  simp only [Option.bind_eq_bind, Option.bind_eq_some_iff, Prod.exists, Text.padding?] at h
  obtain ⟨before, rest, hcut, covered, after, hcovered, pad, hpad, htext⟩ := h
  obtain ⟨rfl, hlo⟩ := Text.eq_append_of_splitBytes? hcut
  obtain ⟨earlier, last, rfl, hended, hlast⟩ := Position.exists_ended before
  rw [List.append_assoc] at hlo hcovered ⊢
  have hspan := Quotation.ofSpan_of_start hended hlast hlo
  rw [← hlo] at hcovered
  have hwidth := Text.eq_upTo_of_cutAt? hcovered
  obtain ⟨htail, -⟩ := Text.eq_append_of_splitBytes? hcovered
  rw [← hwidth] at hspan
  rw [hspan]
  refine ⟨?_, ?_, last, covered, after, by rw [← htail], rfl, rfl⟩
  · have hline := Text.line_after hended (last ++ rest)
    rwa [List.takeWhile_append_of_pos (Text.forall_ne hlast)] at hline
  · split at hpad
    · next hle =>
      cases hpad
      rw [Quotation.intercalate_shown, ← Option.some.inj htext,
        Position.after_append hended hlast, Position.lastLine_append hended hlast]
    · cases hpad

end Diagnostic

namespace CompileError

open Quotation (ofSpan)

/-- Every source and every error that is shown with it. The carets stay below the line as it stands
in the source, and below what is printed of it if and only if the span does not go on to a carriage
return that the line ends with; the one caret that is always drawn is not counted. -/
theorem underlines_iff_of_render? (source : String) (e : CompileError) (text : String)
    (h : e.render? source = some text) :
    let q := ofSpan source.toList e.span
    (lines source.toList)[q.number - 1]? = some q.line ∧
      text = String.intercalate "\n" (q.shown e.message.value) ∧
      q.column - 1 + q.carets ≤ max q.line.length q.column ∧
      (q.Underlines ↔ ¬ q.Overhangs) := by
  obtain ⟨hline, htext, before, covered, after, hcovers⟩ := Diagnostic.shown_of_render? h
  exact ⟨hline, htext, hcovers.carets_within_line, hcovers.underlines_iff⟩

/-- A branch that goes on over two lines, with an end of line of one character. -/
theorem underlines_of_empty_branch :
    ∃ e text, Compiler.compile .standard .default "IF TRUE THEN\nEND" = .error (.error e) ∧
      e.render? "IF TRUE THEN\nEND" = some text ∧
      text = "error: THEN branch can't be empty\n --> line 1, col 1\n  |\n" ++
        "1 | IF TRUE THEN\n  | ^^^^^^^^^^^^" ∧
      (ofSpan "IF TRUE THEN\nEND".toList e.span).Underlines ∧
      ¬ (ofSpan "IF TRUE THEN\nEND".toList e.span).Overhangs := by
  have herror : Compiler.compile .standard .default "IF TRUE THEN\nEND" =
      .error (.error (.typing ⟨⟨0, 16⟩, .emptyThen⟩)) := by decide +kernel
  have htext : render? "IF TRUE THEN\nEND" (.typing ⟨⟨0, 16⟩, .emptyThen⟩) =
      some ("error: THEN branch can't be empty\n --> line 1, col 1\n  |\n" ++
        "1 | IF TRUE THEN\n  | ^^^^^^^^^^^^") := by decide +kernel
  have hunder : (ofSpan "IF TRUE THEN\nEND".toList ⟨0, 16⟩).Underlines := by decide
  obtain ⟨-, -, -, hiff⟩ := underlines_iff_of_render? _ _ _ htext
  exact ⟨_, _, herror, htext, rfl, hunder, hiff.1 hunder⟩

/-- An unclosed string goes on behind its line, over the carriage return too, which is not printed:
there are four carets below three characters. -/
theorem not_underlines_of_carriage_return :
    ∃ e text, Compiler.compile .standard .default "\"ab\r\n" = .error (.error e) ∧
      e.render? "\"ab\r\n" = some text ∧
      text = "error: unclosed string\n --> line 1, col 1\n  |\n1 | \"ab\n  | ^^^^" ∧
      (ofSpan "\"ab\r\n".toList e.span).printed = "\"ab".toList ∧
      (ofSpan "\"ab\r\n".toList e.span).column = 1 ∧
      (ofSpan "\"ab\r\n".toList e.span).carets = 4 ∧
      ¬ (ofSpan "\"ab\r\n".toList e.span).Underlines :=
  ⟨.lex ⟨⟨0, 5⟩, .unclosedString⟩, _, by decide +kernel, by decide +kernel, rfl,
    by decide, by decide, by decide, by decide⟩

end CompileError

end LetLang
