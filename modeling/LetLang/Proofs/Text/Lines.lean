import LetLang.Proofs.Text.Boundary
import LetLang.Proofs.Text.Prefix

/-!
The lines of a text, which are what its line feeds leave between them, and the characters in front
of an offset. A text has one line more than it has line feeds; lines are counted from zero here, so
the number of a line is the number of line feeds before it.
-/

namespace LetLang.Text

def lines (cs : List Char) : List (List Char) := cs.splitOn '\n'

/-- The offset at which a line starts: the lines before it end with a line feed each. -/
def lineStart (cs : List Char) (i : Nat) : Nat :=
  byteLength (((lines cs).take i).flatMap (· ++ ['\n']))

/-- The characters that start before an offset. -/
def upTo : Nat → List Char → List Char
  | 0, _ => []
  | _ + 1, [] => []
  | n + 1, c :: cs => c :: upTo (n + 1 - c.utf8Size) cs

/-- Nothing, or whole lines with their line feeds. -/
def Ended (cs : List Char) : Prop := cs = [] ∨ ∃ init, cs = init ++ ['\n']

variable {as bs cs earlier rest line : List Char} {n i : Nat}

/-! Characters before an offset. -/

theorem upTo_append_add (as bs : List Char) (n : Nat) :
    upTo (byteLength as + n) (as ++ bs) = as ++ upTo n bs := by
  induction as with
  | nil => simp
  | cons c as ih =>
    obtain ⟨m, hm⟩ : ∃ m, c.utf8Size + byteLength as + n = m + 1 :=
      ⟨c.utf8Size + byteLength as + n - 1, by have := c.utf8Size_pos; omega⟩
    have hrest : m + 1 - c.utf8Size = byteLength as + n := by omega
    rw [byteLength_cons, hm, List.cons_append, upTo, hrest, ih, List.cons_append]

theorem upTo_append (as bs : List Char) : upTo (byteLength as) (as ++ bs) = as := by
  have := upTo_append_add as bs 0
  rwa [upTo, List.append_nil] at this

theorem upTo_of_le (h : byteLength cs ≤ n) : upTo n cs = cs := by
  have := upTo_append_add cs [] (n - byteLength cs)
  rw [Nat.add_sub_cancel' h, List.append_nil] at this
  rw [this]
  cases n - byteLength cs <;> simp [upTo]

theorem upTo_min {m : Nat} (h : byteLength cs ≤ m) (n : Nat) : upTo (min n m) cs = upTo n cs := by
  rcases Nat.le_total n m with hle | hle
  · rw [Nat.min_eq_left hle]
  · rw [Nat.min_eq_right hle, upTo_of_le h, upTo_of_le (Nat.le_trans h hle)]

/-- A cut is made behind these characters, where one is possible. -/
theorem eq_upTo_of_cutAt? (h : cutAt? cs n = some (as, bs)) : as = upTo n cs := by
  obtain ⟨rfl, hlen⟩ := eq_append_of_splitBytes? h
  rw [byteLength_append] at hlen
  rcases Nat.le_total n (byteLength as + byteLength bs) with hle | hle
  · rw [Nat.min_eq_left hle] at hlen
    rw [← hlen, upTo_append]
  · rw [Nat.min_eq_right hle] at hlen
    obtain rfl : bs = [] := byteLength_eq_zero (by omega)
    rw [List.append_nil, upTo_of_le (by simpa using hle)]

theorem byteLength_takeWhile_le (cs : List Char) (p : Char → Bool) :
    byteLength (cs.takeWhile p) ≤ byteLength cs := by
  have h := congrArg byteLength (List.takeWhile_append_dropWhile (p := p) (l := cs))
  rw [byteLength_append] at h
  omega

/-! Lines. -/

theorem lines_append_break (as bs : List Char) :
    lines (as ++ '\n' :: bs) = lines as ++ lines bs :=
  List.splitOn_append_cons_self as bs

theorem lines_of_not_mem (h : '\n' ∉ cs) : lines cs = [cs] := List.splitOn_eq_singleton h

theorem lines_cons_line (h : '\n' ∉ line) (rest : List Char) :
    lines (line ++ '\n' :: rest) = line :: lines rest := by
  rw [lines_append_break, lines_of_not_mem h, List.singleton_append]

/-- A text is a line, or a line with its line feed and a text behind it. -/
theorem line_induction {P : List Char → Prop} (last : ∀ line, '\n' ∉ line → P line)
    (cons : ∀ line rest, '\n' ∉ line → P rest → P (line ++ '\n' :: rest)) (cs : List Char) :
    P cs := by
  by_cases h : '\n' ∈ cs
  · obtain ⟨line, rest, rfl, hline⟩ := List.eq_append_cons_of_mem h
    exact cons line rest hline (line_induction last cons rest)
  · exact last cs h
termination_by cs.length
decreasing_by subst_vars; simp; omega

theorem length_lines (cs : List Char) : (lines cs).length = cs.count '\n' + 1 := by
  induction cs using line_induction with
  | last line h => rw [lines_of_not_mem h, List.count_eq_zero.2 h, List.length_singleton]
  | cons line rest h ih =>
    rw [lines_cons_line h, List.length_cons, ih, List.count_append, List.count_eq_zero.2 h,
      List.count_cons_self, Nat.zero_add]

theorem flatMap_lines (cs : List Char) :
    (lines cs).flatMap (· ++ ['\n']) = cs ++ ['\n'] := by
  induction cs using line_induction with
  | last line h => rw [lines_of_not_mem h, List.flatMap_singleton]
  | cons line rest h ih =>
    rw [lines_cons_line h, List.flatMap_cons, ih, List.append_assoc, List.append_assoc,
      List.singleton_append, List.cons_append]

theorem getElem?_lines_zero (cs : List Char) :
    (lines cs)[0]? = some (cs.takeWhile (· ≠ '\n')) := by
  induction cs using line_induction with
  | last line h =>
    rw [lines_of_not_mem h, takeWhile_ne_nil h]
    rfl
  | cons line rest h _ =>
    rw [lines_cons_line h, takeWhile_ne h]
    rfl

/-! A line and what is before it. -/

theorem Ended.cons (h : Ended cs) (line : List Char) : Ended (line ++ '\n' :: cs) := by
  obtain rfl | ⟨init, rfl⟩ := h
  · exact .inr ⟨line, rfl⟩
  · exact .inr ⟨line ++ '\n' :: init, by simp⟩

/-- Lines that have ended are lines of any text that they are in front of. -/
theorem exists_lines (h : Ended earlier) (rest : List Char) :
    ∃ ls, lines (earlier ++ rest) = ls ++ lines rest ∧ ls.length = earlier.count '\n' ∧
      ls.flatMap (· ++ ['\n']) = earlier := by
  obtain rfl | ⟨init, rfl⟩ := h
  · exact ⟨[], rfl, rfl, rfl⟩
  · refine ⟨lines init, ?_, ?_, flatMap_lines init⟩
    · rw [List.append_assoc, List.singleton_append, lines_append_break]
    · rw [length_lines, List.count_append, List.count_singleton_self]

theorem line_after (h : Ended earlier) (rest : List Char) :
    (lines (earlier ++ rest))[earlier.count '\n']? = some (rest.takeWhile (· ≠ '\n')) := by
  obtain ⟨ls, hlines, hlen, -⟩ := exists_lines h rest
  rw [hlines, ← hlen, List.getElem?_append_right (Nat.le_refl _), Nat.sub_self,
    getElem?_lines_zero]

theorem lineStart_after (h : Ended earlier) (rest : List Char) :
    lineStart (earlier ++ rest) (earlier.count '\n') = byteLength earlier := by
  obtain ⟨ls, hlines, hlen, hbreaks⟩ := exists_lines h rest
  rw [lineStart, hlines, ← hlen, List.take_left, hbreaks]

/-- Where a line is. -/
theorem exists_before_line (h : (lines cs)[i]? = some line) :
    ∃ earlier rest, cs = earlier ++ rest ∧ Ended earlier ∧ earlier.count '\n' = i ∧
      line = rest.takeWhile (· ≠ '\n') := by
  induction cs using line_induction generalizing i with
  | last l hl =>
    cases i with
    | zero =>
      rw [getElem?_lines_zero] at h
      exact ⟨[], l, rfl, .inl rfl, rfl, (Option.some.inj h).symm⟩
    | succ i =>
      rw [lines_of_not_mem hl] at h
      cases h
  | cons l rest hl ih =>
    cases i with
    | zero =>
      rw [getElem?_lines_zero] at h
      exact ⟨[], _, rfl, .inl rfl, rfl, (Option.some.inj h).symm⟩
    | succ i =>
      rw [lines_cons_line hl] at h
      obtain ⟨earlier, after, rfl, hended, rfl, hline⟩ := ih h
      refine ⟨l ++ '\n' :: earlier, after, by simp, hended.cons l, ?_, hline⟩
      rw [List.count_append, List.count_eq_zero.2 hl, List.count_cons_self, Nat.zero_add]

end LetLang.Text
