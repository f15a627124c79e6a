import LetLang.Proofs.Text.Lines
import LetLang.Proofs.Text.Underline
import Mathlib.Logic.ExistsUnique

/-!
Lines and columns stand for the places between the characters of a text. Later places have later
positions, a place is found again from its position, and all positions on the lines of the text are
taken.
-/

namespace LetLang.Position

open Text (IsBoundary Ended lines lineStart byteLength cutAt?_of_le cutAt?_of_ge)

/-- The order by line and then by column. -/
def Before (p q : Position) : Prop := p.line < q.line ∨ p.line = q.line ∧ p.column < q.column

theorem Before.ne {p q : Position} (h : p.Before q) : p ≠ q := by
  rintro rfl
  obtain h | ⟨-, h⟩ := h
  · exact Nat.lt_irrefl _ h
  · exact Nat.lt_irrefl _ h

variable {earlier cs : List Char}

/-! What a text leads up to. -/

theorem exists_ended (cs : List Char) :
    ∃ earlier last, cs = earlier ++ last ∧ Ended earlier ∧ '\n' ∉ last :=
  let ⟨earlier, hcs, hended⟩ := exists_earlier cs
  ⟨earlier, lastLine cs, hcs, hended, newline_not_mem_lastLine cs⟩

theorem lastLine_append (h : Ended earlier) (hcs : '\n' ∉ cs) : lastLine (earlier ++ cs) = cs := by
  have hhead : ∀ c ∈ earlier.reverse.head?, decide (c ≠ '\n') = false := by
    obtain rfl | ⟨init, rfl⟩ := h
    · nofun
    · simp
  rw [lastLine, List.reverse_append,
    Text.takeWhile_append (Text.forall_ne (by simpa using hcs)) hhead, List.reverse_reverse]

theorem after_append (h : Ended earlier) (hcs : '\n' ∉ cs) :
    after (earlier ++ cs) = ⟨earlier.count '\n' + 1, cs.length + 1⟩ := by
  rw [after, lastLine_append h hcs, List.count_append, List.count_eq_zero.2 hcs, Nat.add_zero]

/-- Every further character leads to a later position. -/
theorem before_after_append (cs : List Char) {gap : List Char} (hgap : gap ≠ []) :
    (after cs).Before (after (cs ++ gap)) := by
  by_cases hbreak : '\n' ∈ gap
  · left
    have := List.count_pos_iff.2 hbreak
    simp only [after, List.count_append]
    omega
  · right
    obtain ⟨earlier, last, rfl, hended, hlast⟩ := exists_ended cs
    rw [after_append hended hlast, List.append_assoc,
      after_append hended (by simp [hlast, hbreak])]
    have := List.length_pos_iff.2 hgap
    exact ⟨rfl, by simp only [List.length_append]; omega⟩

theorem ofOffset?_of_cut (before rest : List Char) :
    ofOffset? (before ++ rest) (byteLength before) = some (after before) := by
  rw [ofOffset?, cutAt?_of_le rfl, Option.map_some]

theorem ofOffset?_of_ge {source : List Char} {n : Nat} (h : byteLength source ≤ n) :
    ofOffset? source n = some (after source) := by
  rw [ofOffset?, cutAt?_of_ge h, Option.map_some]

/-- The positions of a text are those of its offsets between characters, one for each: the columns
of a line go from the one before its first character to the one after its last. -/
structure Locates (source : List Char) : Prop where
  ordered : ∀ a b, IsBoundary source a → IsBoundary source b → a < b →
    ∃ p q, ofOffset? source a = some p ∧ ofOffset? source b = some q ∧ p.Before q
  found : ∀ n, IsBoundary source n → ∃ p line, ofOffset? source n = some p ∧
    1 ≤ p.line ∧ (lines source)[p.line - 1]? = some line ∧
    1 ≤ p.column ∧ p.column ≤ line.length + 1 ∧
    n = lineStart source (p.line - 1) + byteLength (line.take (p.column - 1))
  taken : ∀ p : Position, 1 ≤ p.line → p.line ≤ source.count '\n' + 1 →
    ∃ line, (lines source)[p.line - 1]? = some line ∧
      (1 ≤ p.column → p.column ≤ line.length + 1 →
        ∃! n, IsBoundary source n ∧ ofOffset? source n = some p)
  beyond : ∀ n, byteLength source ≤ n → ofOffset? source n = ofOffset? source (byteLength source)

section Texts

variable {source : List Char}

theorem ordered_offsets {a b : Nat} (ha : IsBoundary source a) (hb : IsBoundary source b)
    (hlt : a < b) :
    ∃ p q, ofOffset? source a = some p ∧ ofOffset? source b = some q ∧ p.Before q := by
  obtain ⟨before, rest, rfl, rfl⟩ := ha
  obtain ⟨upto, after, hsplit, rfl⟩ := hb
  obtain ⟨gap, rfl, hrest⟩ := Text.exists_gap hsplit (Nat.le_of_lt hlt)
  refine ⟨_, _, ofOffset?_of_cut before rest, hsplit ▸ ofOffset?_of_cut _ after, ?_⟩
  apply before_after_append
  rintro rfl
  simp at hlt

/-- A position and its line have the offset of the place. -/
theorem found_offset {n : Nat} (hn : IsBoundary source n) :
    ∃ p line, ofOffset? source n = some p ∧ 1 ≤ p.line ∧
      (lines source)[p.line - 1]? = some line ∧ 1 ≤ p.column ∧ p.column ≤ line.length + 1 ∧
      n = lineStart source (p.line - 1) + byteLength (line.take (p.column - 1)) := by
  obtain ⟨before, rest, rfl, rfl⟩ := hn
  obtain ⟨earlier, last, rfl, hended, hlast⟩ := exists_ended before
  have hline := Text.line_after hended (last ++ rest)
  rw [List.takeWhile_append_of_pos (Text.forall_ne hlast)] at hline
  refine ⟨_, last ++ rest.takeWhile (· ≠ '\n'), ofOffset?_of_cut _ rest, ?_⟩
  rw [after_append hended hlast, List.append_assoc]
  refine ⟨Nat.le_add_left .., hline, Nat.le_add_left .., by simp, ?_⟩
  simp only [Nat.add_sub_cancel, List.take_left, Text.lineStart_after hended,
    Text.byteLength_append]

theorem taken_position {p : Position} {line : List Char} (hp : 1 ≤ p.line)
    (hline : (lines source)[p.line - 1]? = some line) (hcol : 1 ≤ p.column)
    (hlen : p.column ≤ line.length + 1) :
    ∃ n, IsBoundary source n ∧ ofOffset? source n = some p := by
  obtain ⟨earlier, rest, rfl, hended, hcount, rfl⟩ := Text.exists_before_line hline
  generalize hfront : (rest.takeWhile (· ≠ '\n')).take (p.column - 1) = front
  have hbreak : '\n' ∉ front := fun h =>
    Text.not_mem_takeWhile_ne rest '\n' (List.mem_of_mem_take (hfront ▸ h))
  obtain ⟨more, hrest⟩ : ∃ more, rest = front ++ more :=
    ((List.take_prefix ..).trans (List.takeWhile_prefix _)).imp fun _ h => (hfront ▸ h).symm
  have hcut := ofOffset?_of_cut (earlier ++ front) more
  rw [List.append_assoc, ← hrest, after_append hended hbreak] at hcut
  refine ⟨_, ⟨earlier ++ front, more, by rw [hrest, List.append_assoc], rfl⟩, hcut.trans ?_⟩
  have hlength : front.length = p.column - 1 := by rw [← hfront, List.length_take]; omega
  rw [hcount, hlength, Nat.sub_add_cancel hp, Nat.sub_add_cancel hcol]

theorem unique_offset {a b : Nat} {p : Position} (ha : IsBoundary source a)
    (hb : IsBoundary source b) (hpa : ofOffset? source a = some p)
    (hpb : ofOffset? source b = some p) : a = b := by
  rcases Nat.lt_trichotomy a b with hlt | h | hlt
  · obtain ⟨_, _, h, h', hbefore⟩ := ordered_offsets ha hb hlt
    exact absurd (Option.some.inj (h.symm.trans (hpa.trans (hpb.symm.trans h')))) hbefore.ne
  · exact h
  · obtain ⟨_, _, h, h', hbefore⟩ := ordered_offsets hb ha hlt
    exact absurd (Option.some.inj (h.symm.trans (hpb.trans (hpa.symm.trans h')))) hbefore.ne

end Texts

/-- Every text. -/
theorem locates_text (source : List Char) : Locates source where
  ordered _ _ ha hb hlt := ordered_offsets ha hb hlt
  found _ hn := found_offset hn
  taken p hp hle := by
    have hlt : p.line - 1 < (lines source).length := by rw [Text.length_lines]; omega
    refine ⟨_, List.getElem?_eq_getElem hlt, fun hcol hlen => ?_⟩
    obtain ⟨n, hn, hpos⟩ := taken_position hp (List.getElem?_eq_getElem hlt) hcol hlen
    exact ⟨n, ⟨hn, hpos⟩, fun m hm => unique_offset hm.1 hn hm.2 hpos⟩
  beyond n h := by rw [ofOffset?_of_ge h, ofOffset?_of_ge (Nat.le_refl _)]

example : ofOffset? "ab\n\nxé".toList 5 = some ⟨3, 2⟩ := by decide

end LetLang.Position
