import LetLang.Diagnostic
import LetLang.Proofs.Text.Boundary

/-!
When a place can be shown with its line. Both ends of a span that stands between characters can be
cut off, so only the padding in front of the carets can be out of reach.
-/

namespace LetLang

namespace Text

theorem IsBoundary.le {cs : List Char} {n : Nat} (h : IsBoundary cs n) : n ≤ byteLength cs := by
  obtain ⟨before, after, rfl, rfl⟩ := h
  rw [byteLength_append]
  omega

/-- A text is cut where it has a boundary. -/
theorem cutAt?_of_le {before after : List Char} {n : Nat} (h : byteLength before = n) :
    cutAt? (before ++ after) n = some (before, after) := by
  rw [cutAt?, byteLength_append, Nat.min_eq_left (by omega), ← h, splitBytes?_append]

theorem cutAt?_of_ge {cs : List Char} {n : Nat} (h : byteLength cs ≤ n) :
    cutAt? cs n = some (cs, []) := by
  have := splitBytes?_append cs []
  rw [List.append_nil] at this
  rw [cutAt?, Nat.min_eq_right h, this]

/-- Where a text can be cut, so can its start. -/
theorem exists_cutAt?_takeWhile {cs : List Char} {n : Nat}
    (h : IsBoundary cs n ∨ byteLength cs ≤ n) (p : Char → Bool) :
    ∃ parts, cutAt? (cs.takeWhile p) n = some parts := by
  have hcs := List.takeWhile_append_dropWhile (p := p) (l := cs)
  by_cases hle : byteLength (cs.takeWhile p) ≤ n
  · exact ⟨_, cutAt?_of_ge hle⟩
  · obtain ⟨mid, after, hmid, hlen⟩ | hover := h
    · obtain ⟨gap, hgap, -⟩ := exists_gap (hmid.symm.trans hcs.symm) (by omega)
      rw [hgap]
      exact ⟨_, cutAt?_of_le hlen⟩
    · rw [← hcs, byteLength_append] at hover
      omega

/-- What stands before an offset on its line. -/
def LineBefore (cs : List Char) (n : Nat) (line : List Char) : Prop :=
  ∃ earlier rest, cs = earlier ++ (line ++ rest) ∧ byteLength (earlier ++ line) = n ∧
    '\n' ∉ line ∧ (earlier = [] ∨ ∃ init, earlier = init ++ ['\n'])

end Text

open Text (IsBoundary LineBefore byteLength cutAt?_of_le cutAt?_of_ge)

namespace Position

theorem newline_not_mem_lastLine (cs : List Char) : '\n' ∉ lastLine cs := by
  intro h
  have := List.all_eq_true.1 List.all_takeWhile _ (List.mem_reverse.1 h)
  simp at this

/-- Before the last line there is nothing, or a line that has ended. -/
theorem exists_earlier (cs : List Char) :
    ∃ earlier, cs = earlier ++ lastLine cs ∧
      (earlier = [] ∨ ∃ init, earlier = init ++ ['\n']) := by
  refine ⟨(cs.reverse.dropWhile (· ≠ '\n')).reverse, ?_, ?_⟩
  · rw [lastLine, ← List.reverse_append, List.takeWhile_append_dropWhile, List.reverse_reverse]
  · cases h : cs.reverse.dropWhile (· ≠ '\n') with
    | nil => exact .inl rfl
    | cons c rest =>
      have hc := List.head?_dropWhile_not (fun c => decide (c ≠ '\n')) cs.reverse
      rw [h] at hc
      obtain rfl : c = '\n' := by simpa using hc
      exact .inr ⟨rest.reverse, by simp⟩

theorem lineBefore_lastLine {before rest : List Char} :
    LineBefore (before ++ rest) (byteLength before) (lastLine before) := by
  obtain ⟨earlier, hbefore, hend⟩ := exists_earlier before
  refine ⟨earlier, rest, ?_, ?_, newline_not_mem_lastLine before, hend⟩
  · rw [← List.append_assoc, ← hbefore]
  · rw [← hbefore]

end Position

namespace Diagnostic

/-- A span of the source cannot be shown if and only if too much stands before it on its line. -/
theorem render?_eq_none_iff {source : List Char} {span : Span} {message : String}
    (hfits : span.Fits) (hlo : IsBoundary source span.lo) (hhi : IsBoundary source span.hi) :
    ∃ line, LineBefore source span.lo line ∧
      (render? source span message = none ↔ Text.maxWidth < line.length) := by
  obtain ⟨before, rest, rfl, hbefore⟩ := hlo
  refine ⟨Position.lastLine before, hbefore ▸ Position.lineBefore_lastLine, ?_⟩
  have hroom : span.hi - min span.lo (byteLength (before ++ rest)) = span.len := by
    rw [Nat.min_eq_left (by rw [Text.byteLength_append]; omega), Span.hi,
      Nat.add_sub_cancel_left]
  have hend : IsBoundary rest span.len := by
    obtain ⟨upto, after, hupto, hlen⟩ := hhi
    rw [Span.hi] at hlen
    obtain ⟨mid, rfl, hrest⟩ := Text.exists_gap hupto (by omega)
    rw [Text.byteLength_append, hbefore] at hlen
    exact ⟨mid, after, hrest, by omega⟩
  obtain ⟨⟨covered, after⟩, hcut⟩ := Text.exists_cutAt?_takeWhile (.inl hend) (· ≠ '\n')
  rw [render?, show (guard span.Fits : Option Unit) = some () from if_pos hfits]
  simp only [cutAt?_of_le hbefore, Option.bind_eq_bind, Option.bind_some, hroom, hcut,
    Text.padding?, Position.after, Nat.add_sub_cancel]
  by_cases hwidth : (Position.lastLine before).length ≤ Text.maxWidth
  · simp [hwidth]
  · simp [hwidth, Nat.not_le.1 hwidth]

end Diagnostic

end LetLang
