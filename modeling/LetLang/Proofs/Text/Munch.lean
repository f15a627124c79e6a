import LetLang.Text.Slice

/-!
Texts cut by longest match. A lexicon says which texts are words, of which kind, and which
characters may stand between words. A cut takes away blanks one by one and words whole, each word
the longest that starts at its place. A text has at most one cut.
-/

namespace LetLang.Text

structure Word (κ : Type) where
  kind : κ
  text : List Char
  deriving DecidableEq, Repr

/-- A word and the offset it starts at. -/
structure Piece (κ : Type) where
  offset : Nat
  word : Word κ
  deriving DecidableEq, Repr

/-- A text is a word of one kind at most, and words start with something other than a blank. -/
structure Lexicon (κ : Type) where
  blank : Char → Bool
  IsWord : κ → List Char → Prop
  starts : ∀ {k text}, IsWord k text → ∃ c cs, text = c :: cs ∧ blank c = false
  kind_unique : ∀ {k k' text}, IsWord k text → IsWord k' text → k = k'

namespace Lexicon

variable {κ : Type} (L : Lexicon κ)

/-- A word, and no longer start of `text ++ rest` is a word of any kind. -/
def Longest (k : κ) (text rest : List Char) : Prop :=
  L.IsWord k text ∧
    ∀ k' more after, rest = more ++ after → L.IsWord k' (text ++ more) → more = []

inductive Cut : Nat → List Char → List (Piece κ) → Prop
  | nil {o : Nat} : Cut o [] []
  | blank {o : Nat} {c : Char} {cs : List Char} {ps : List (Piece κ)} :
      L.blank c = true → Cut (o + c.utf8Size) cs ps → Cut o (c :: cs) ps
  | word {o : Nat} {k : κ} {text rest : List Char} {ps : List (Piece κ)} :
      L.Longest k text rest → Cut (o + byteLength text) rest ps →
      Cut o (text ++ rest) (⟨o, k, text⟩ :: ps)

variable {L}

theorem Longest.unique {k k' : κ} {t t' r r' : List Char} (h : L.Longest k t r)
    (h' : L.Longest k' t' r') (he : t ++ r = t' ++ r') : k = k' ∧ t = t' ∧ r = r' := by
  have ht : t = t' := by
    rcases List.append_eq_append_iff.1 he with ⟨more, rfl, hr⟩ | ⟨more, rfl, hr⟩
    · simp [h.2 k' more r' hr h'.1]
    · simp [h'.2 k more r hr h.1]
  subst ht
  exact ⟨L.kind_unique h.1 h'.1, rfl, List.append_cancel_left he⟩

theorem cut_nil_iff {o : Nat} {ps : List (Piece κ)} : L.Cut o [] ps ↔ ps = [] := by
  refine ⟨?_, ?_⟩
  · generalize hcs : ([] : List Char) = cs
    rintro (_ | _ | ⟨h, -⟩)
    · rfl
    · cases hcs
    · obtain ⟨c, cs, rfl, -⟩ := L.starts h.1
      cases hcs
  · rintro rfl
    exact .nil

theorem cut_blank_iff {o : Nat} {c : Char} {cs : List Char} {ps : List (Piece κ)}
    (hc : L.blank c = true) : L.Cut o (c :: cs) ps ↔ L.Cut (o + c.utf8Size) cs ps := by
  refine ⟨?_, ?_⟩
  · generalize hcs : c :: cs = all
    rintro (_ | ⟨-, hcut⟩ | ⟨h, -⟩)
    · cases hcs
    · cases hcs
      exact hcut
    · obtain ⟨d, ds, rfl, hd⟩ := L.starts h.1
      cases hcs
      rw [hc] at hd
      cases hd
  · exact .blank hc

theorem cut_longest_iff {o : Nat} {k : κ} {t r : List Char} {ps : List (Piece κ)}
    (h : L.Longest k t r) :
    L.Cut o (t ++ r) ps ↔ ∃ qs, ps = ⟨o, k, t⟩ :: qs ∧ L.Cut (o + byteLength t) r qs := by
  refine ⟨?_, ?_⟩
  · obtain ⟨c, cs, hc, hb⟩ := L.starts h.1
    generalize hcs : t ++ r = all
    rintro (_ | ⟨hb', -⟩ | ⟨h', hcut⟩)
    · simp [hc] at hcs
    · obtain ⟨rfl, -⟩ := by simpa [hc] using hcs
      rw [hb] at hb'
      cases hb'
    · obtain ⟨rfl, rfl, rfl⟩ := h.unique h' hcs
      exact ⟨_, rfl, hcut⟩
  · rintro ⟨qs, rfl, hcut⟩
    exact .word h hcut

/-- A text that starts with neither a blank nor a word has no cut. -/
theorem not_cut {o : Nat} {c : Char} {cs : List Char} {ps : List (Piece κ)}
    (hc : L.blank c = false) (hw : ∀ k t r, c :: cs = t ++ r → ¬ L.IsWord k t) :
    ¬ L.Cut o (c :: cs) ps := by
  generalize hcs : c :: cs = all
  rintro (_ | ⟨hb, -⟩ | ⟨h, -⟩)
  · cases hcs
  · cases hcs
    rw [hc] at hb
    cases hb
  · exact hw _ _ _ hcs h.1

theorem Cut.blanks {o : Nat} {gap cs : List Char} {ps : List (Piece κ)}
    (hgap : ∀ c ∈ gap, L.blank c = true) (h : L.Cut (o + byteLength gap) cs ps) :
    L.Cut o (gap ++ cs) ps := by
  induction gap generalizing o with
  | nil => simpa using h
  | cons c gap ih =>
    refine .blank (hgap c (by simp)) (ih (fun d hd => hgap d (by simp [hd])) ?_)
    rwa [Nat.add_assoc, ← byteLength_cons]

theorem Cut.unique {o : Nat} {cs : List Char} {ps qs : List (Piece κ)} (h : L.Cut o cs ps)
    (h' : L.Cut o cs qs) : ps = qs := by
  induction h generalizing qs with
  | nil => exact (cut_nil_iff.1 h').symm
  | blank hc _ ih => exact ih ((cut_blank_iff hc).1 h')
  | word hl _ ih =>
    obtain ⟨qs, rfl, hcut⟩ := (cut_longest_iff hl).1 h'
    rw [ih hcut]

theorem Cut.isWord {o : Nat} {cs : List Char} {ps : List (Piece κ)} (h : L.Cut o cs ps) :
    ∀ p ∈ ps, L.IsWord p.word.kind p.word.text := by
  induction h with
  | nil => simp
  | blank _ _ ih => exact ih
  | word hl _ ih => exact List.forall_mem_cons.2 ⟨hl.1, ih⟩

/-- Where the words stand in the text. -/
theorem Cut.placed {o : Nat} {cs : List Char} {ps : List (Piece κ)} (h : L.Cut o cs ps) :
    ∀ p ∈ ps, ∃ before after, cs = before ++ (p.word.text ++ after) ∧
      p.offset = o + byteLength before := by
  induction h with
  | nil => simp
  | @blank o c cs ps _ _ ih =>
    intro p hp
    obtain ⟨before, after, rfl, ho⟩ := ih p hp
    exact ⟨c :: before, after, rfl, by rw [ho, byteLength_cons, Nat.add_assoc]⟩
  | @word o k text rest ps _ _ ih =>
    refine List.forall_mem_cons.2 ⟨⟨[], rest, rfl, by simp⟩, fun p hp => ?_⟩
    obtain ⟨before, after, rfl, ho⟩ := ih p hp
    exact ⟨text ++ before, after, by simp, by rw [ho, byteLength_append, Nat.add_assoc]⟩

/-- The words of a text, wherever it stands. -/
def Says (L : Lexicon κ) (cs : List Char) (ws : List (Word κ)) : Prop :=
  ∀ o, ∃ ps, L.Cut o cs ps ∧ ps.map (·.word) = ws

theorem Says.nil : L.Says [] [] := fun _ => ⟨[], .nil, rfl⟩

theorem Says.blank {c : Char} {cs : List Char} {ws : List (Word κ)} (hc : L.blank c = true)
    (h : L.Says cs ws) : L.Says (c :: cs) ws := by
  intro o
  obtain ⟨ps, hp, hw⟩ := h (o + c.utf8Size)
  exact ⟨ps, .blank hc hp, hw⟩

theorem Says.word {k : κ} {text rest : List Char} {ws : List (Word κ)}
    (hl : L.Longest k text rest) (h : L.Says rest ws) :
    L.Says (text ++ rest) (⟨k, text⟩ :: ws) := by
  intro o
  obtain ⟨ps, hp, hw⟩ := h (o + byteLength text)
  exact ⟨_, .word hl hp, by rw [List.map_cons, hw]⟩

theorem Says.unique {cs : List Char} {ws ws' : List (Word κ)} (h : L.Says cs ws)
    (h' : L.Says cs ws') : ws = ws' := by
  obtain ⟨ps, hp, rfl⟩ := h 0
  obtain ⟨ps', hp', rfl⟩ := h' 0
  rw [hp.unique hp']

end Lexicon

end LetLang.Text
