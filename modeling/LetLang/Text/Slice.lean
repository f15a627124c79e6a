/-!
Texts cut at byte offsets. An offset counts the UTF-8 bytes before it, and a cut is possible only
between two characters: `splitBytes? n` gives the one division whose first part has `n` bytes.
-/

namespace LetLang.Text

def byteLength : List Char → Nat
  | [] => 0
  | c :: cs => c.utf8Size + byteLength cs

@[simp] theorem byteLength_nil : byteLength [] = 0 := rfl

@[simp] theorem byteLength_cons (c : Char) (cs : List Char) :
    byteLength (c :: cs) = c.utf8Size + byteLength cs := rfl

@[simp] theorem byteLength_append (as bs : List Char) :
    byteLength (as ++ bs) = byteLength as + byteLength bs := by
  induction as with
  | nil => simp
  | cons c as ih => simp [ih, Nat.add_assoc]

def splitBytes? : Nat → List Char → Option (List Char × List Char)
  | 0, cs => some ([], cs)
  | _ + 1, [] => none
  | n + 1, c :: cs =>
    if c.utf8Size ≤ n + 1 then
      (splitBytes? (n + 1 - c.utf8Size) cs).map fun (before, after) => (c :: before, after)
    else none

theorem splitBytes?_append (as bs : List Char) :
    splitBytes? (byteLength as) (as ++ bs) = some (as, bs) := by
  induction as with
  | nil => cases bs <;> rfl
  | cons c as ih =>
    obtain ⟨n, hn⟩ : ∃ n, c.utf8Size + byteLength as = n + 1 :=
      ⟨c.utf8Size + byteLength as - 1, by have := c.utf8Size_pos; omega⟩
    have hc : c.utf8Size ≤ n + 1 := by omega
    have hr : n + 1 - c.utf8Size = byteLength as := by omega
    simp [hn, splitBytes?, hc, hr, ih]

theorem eq_append_of_splitBytes? {n : Nat} {cs before after : List Char}
    (h : splitBytes? n cs = some (before, after)) :
    cs = before ++ after ∧ byteLength before = n := by
  fun_induction splitBytes? n cs generalizing before after with
  | case1 cs => simp_all
  | case2 => simp at h
  | case3 n c cs hc ih =>
    obtain ⟨⟨b, a⟩, hs, he⟩ := Option.map_eq_some_iff.1 h
    obtain ⟨rfl, hb⟩ := ih hs
    cases he
    exact ⟨rfl, by simp [hb]; omega⟩
  | case4 => simp at h

theorem splitBytes?_eq_some_iff {n : Nat} {cs before after : List Char} :
    splitBytes? n cs = some (before, after) ↔ cs = before ++ after ∧ byteLength before = n :=
  ⟨eq_append_of_splitBytes?, fun ⟨h, hn⟩ => by rw [h, ← hn]; exact splitBytes?_append ..⟩

/-- The text cut in two at an offset, or at its end if the offset is beyond it. -/
def cutAt? (cs : List Char) (offset : Nat) : Option (List Char × List Char) :=
  splitBytes? (min offset (byteLength cs)) cs

/-- The `len` bytes from offset `lo` on. -/
def slice? (cs : List Char) (lo len : Nat) : Option (List Char) := do
  let (_, rest) ← splitBytes? lo cs
  let (part, _) ← splitBytes? len rest
  return part

end LetLang.Text
