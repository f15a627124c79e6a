import LetLang.Text.Slice

/-!
Places between characters. Two starts of one text are comparable by their length in bytes, so an
offset stands for at most one division of the text.
-/

namespace LetLang.Text

/-- The offset is one between two characters, or at an end. -/
def IsBoundary (cs : List Char) (n : Nat) : Prop :=
  ∃ before after, cs = before ++ after ∧ byteLength before = n

theorem byteLength_eq_zero {cs : List Char} (h : byteLength cs = 0) : cs = [] := by
  cases cs with
  | nil => rfl
  | cons c cs =>
    have := c.utf8Size_pos
    rw [byteLength_cons] at h
    omega

theorem byteLength_pos {cs : List Char} (h : cs ≠ []) : 0 < byteLength cs :=
  Nat.pos_of_ne_zero fun h0 => h (byteLength_eq_zero h0)

/-- The shorter of two starts is a start of the longer one. -/
theorem exists_gap {as bs cs ds : List Char} (h : as ++ bs = cs ++ ds)
    (hle : byteLength as ≤ byteLength cs) : ∃ gap, cs = as ++ gap ∧ bs = gap ++ ds := by
  rcases List.append_eq_append_iff.1 h with h | ⟨gap, rfl, rfl⟩
  · exact h
  · rw [byteLength_append] at hle
    obtain rfl : gap = [] := byteLength_eq_zero (by omega)
    exact ⟨[], by simp, by simp⟩

theorem append_inj_of_byteLength {as bs cs ds : List Char} (h : as ++ bs = cs ++ ds)
    (he : byteLength as = byteLength cs) : as = cs ∧ bs = ds := by
  obtain ⟨gap, rfl, rfl⟩ := exists_gap h (Nat.le_of_eq he)
  rw [byteLength_append] at he
  obtain rfl : gap = [] := byteLength_eq_zero (by omega)
  exact ⟨by simp, by simp⟩

theorem slice?_eq_some_iff {cs text : List Char} {lo len : Nat} :
    slice? cs lo len = some text ↔
      ∃ before after, cs = before ++ text ++ after ∧ byteLength before = lo ∧
        byteLength text = len := by
  simp only [slice?, Option.bind_eq_bind, Option.bind_eq_some_iff, Option.pure_def,
    Option.some.injEq, Prod.exists, splitBytes?_eq_some_iff]
  refine ⟨?_, ?_⟩
  · rintro ⟨before, rest, ⟨rfl, hlo⟩, part, after, ⟨rfl, hlen⟩, rfl⟩
    exact ⟨before, after, by simp, hlo, hlen⟩
  · rintro ⟨before, after, rfl, hlo, hlen⟩
    exact ⟨before, text ++ after, ⟨by simp, hlo⟩, text, after, ⟨rfl, hlen⟩, rfl⟩

end LetLang.Text
