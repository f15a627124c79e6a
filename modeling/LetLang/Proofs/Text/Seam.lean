import LetLang.Proofs.Text.Boundary
import LetLang.Proofs.Text.Munch

/-!
Cuts of a text and cuts of its parts. A text is shut off if no word goes on into it. Where a
shut-off text follows, the words before it are cut as they were, so a text can be continued after
any of its words, and a stretch of words can be taken out and cut on its own.
-/

namespace LetLang.Text

namespace Piece

variable {κ : Type}

def stop (p : Piece κ) : Nat := p.offset + byteLength p.word.text

/-- The same word, `n` bytes nearer to the start. -/
def back (n : Nat) (p : Piece κ) : Piece κ := { p with offset := p.offset - n }

/-- The same word, `n` bytes further from the start. -/
def forth (n : Nat) (p : Piece κ) : Piece κ := { p with offset := p.offset + n }

end Piece

namespace Lexicon

variable {κ : Type}

/-- No word is the start of a longer one that goes on into this text. -/
def Shut (L : Lexicon κ) (tail : List Char) : Prop :=
  ∀ c ∈ tail.head?, ∀ k k' text more rest,
    L.IsWord k text → ¬ L.IsWord k' (text ++ more ++ c :: rest)

variable {L : Lexicon κ}

theorem shut_nil : L.Shut [] := by simp [Shut]

/-- A word before a shut-off text is the longest there. -/
theorem longest_of_shut {k : κ} {text tail : List Char} (hw : L.IsWord k text)
    (ht : L.Shut tail) : L.Longest k text tail := by
  refine ⟨hw, fun k' more after htail hlong => ?_⟩
  cases more with
  | nil => rfl
  | cons c more =>
    subst htail
    exact absurd (by simpa using hlong) (ht c rfl k k' text [] more hw)

/-- What is the longest word stays so if the text after it is shut off somewhere. -/
theorem Longest.shut {k : κ} {text mid rest tail : List Char}
    (h : L.Longest k text (mid ++ rest)) (ht : L.Shut tail) : L.Longest k text (mid ++ tail) := by
  refine ⟨h.1, fun k' more after hmore hlong => ?_⟩
  rcases List.append_eq_append_iff.1 hmore with ⟨excess, rfl, htail⟩ | ⟨gap, rfl, -⟩
  · cases excess with
    | nil =>
      rw [List.append_nil] at hlong ⊢
      exact h.2 k' mid rest rfl hlong
    | cons c excess =>
      subst htail
      exact absurd (by simpa using hlong) (ht c rfl k k' text mid excess h.1)
  · exact h.2 k' more (gap ++ rest) (by simp) hlong

/-- Before its first word, a cut has blanks only. -/
theorem Cut.uncons {o : Nat} {cs : List Char} {p : Piece κ} {ps : List (Piece κ)}
    (h : L.Cut o cs (p :: ps)) :
    ∃ gap rest, cs = gap ++ (p.word.text ++ rest) ∧ (∀ c ∈ gap, L.blank c = true) ∧
      p.offset = o + byteLength gap := by
  generalize hps : p :: ps = all at h
  induction h with
  | nil => cases hps
  | @blank o c cs qs hc _ ih =>
    obtain ⟨gap, rest, rfl, hgap, ho⟩ := ih hps
    refine ⟨c :: gap, rest, rfl, List.forall_mem_cons.2 ⟨hc, hgap⟩, ?_⟩
    rw [ho, byteLength_cons, Nat.add_assoc]
  | word =>
    cases hps
    exact ⟨[], _, rfl, by simp, by simp⟩

theorem Cut.blank_of_nil {o : Nat} {cs : List Char} (h : L.Cut o cs []) :
    ∀ c ∈ cs, L.blank c = true := by
  generalize hps : ([] : List (Piece κ)) = ps at h
  induction h with
  | nil => simp
  | blank hc _ ih => exact List.forall_mem_cons.2 ⟨hc, ih hps⟩
  | word => cases hps

/-- The gap before the first word can be left out. -/
theorem Cut.drop_gap {o : Nat} {gap cs : List Char} {ps : List (Piece κ)}
    (hgap : ∀ c ∈ gap, L.blank c = true) (h : L.Cut o (gap ++ cs) ps) :
    L.Cut (o + byteLength gap) cs ps := by
  induction gap generalizing o with
  | nil => simpa using h
  | cons c gap ih =>
    obtain ⟨hc, hgap⟩ := List.forall_mem_cons.1 hgap
    have := ih hgap ((cut_blank_iff hc).1 h)
    rwa [Nat.add_assoc, ← byteLength_cons] at this

/-- A cut divided after some of its words: what stands before can be continued by any text that is
shut off, and what stands after is cut on its own. -/
theorem Cut.split {o : Nat} {cs : List Char} {ps qs : List (Piece κ)} (h : L.Cut o cs (ps ++ qs)) :
    ∃ before after, cs = before ++ after ∧ L.Cut (o + byteLength before) after qs ∧
      (ps = [] → before = []) ∧ (∀ p ∈ ps.getLast?, p.stop = o + byteLength before) ∧
      ∀ tail rs, L.Shut tail → L.Cut (o + byteLength before) tail rs →
        L.Cut o (before ++ tail) (ps ++ rs) := by
  cases ps with
  | nil => exact ⟨[], cs, rfl, h, fun _ => rfl, by simp, fun tail rs _ h => by simpa using h⟩
  | cons p ps =>
    generalize hall : p :: ps ++ qs = all at h
    induction h generalizing p ps with
    | nil => cases hall
    | @blank o c cs all hc hcut ih =>
      obtain ⟨before, after, rfl, hafter, -, hlast, hgo⟩ := ih p ps hall
      rw [Nat.add_assoc, ← byteLength_cons] at hafter hlast
      refine ⟨c :: before, after, rfl, hafter, by simp, hlast, fun tail rs ht h => ?_⟩
      rw [byteLength_cons, ← Nat.add_assoc] at h
      exact .blank hc (hgo tail rs ht h)
    | @word o k text rest all hl hcut ih =>
      obtain ⟨rfl, hall'⟩ := List.cons.inj hall
      cases ps with
      | nil =>
        obtain rfl : qs = all := hall'
        refine ⟨text, rest, rfl, hcut, by simp, by simp [Piece.stop], fun tail rs ht h => ?_⟩
        exact .word (longest_of_shut hl.1 ht) h
      | cons q ps =>
        obtain ⟨before, after, rfl, hafter, -, hlast, hgo⟩ := ih q ps hall'
        rw [Nat.add_assoc, ← byteLength_append] at hafter hlast
        refine ⟨text ++ before, after, by simp, hafter, by simp, ?_, fun tail rs ht h => ?_⟩
        · simpa using hlast
        · rw [byteLength_append, ← Nat.add_assoc] at h
          rw [List.append_assoc]
          exact .word (hl.shut ht) (hgo tail rs ht h)

/-- A cut that starts nearer to the start. -/
theorem Cut.back {o n : Nat} {cs : List Char} {ps : List (Piece κ)} (h : L.Cut o cs ps)
    (hn : n ≤ o) : L.Cut (o - n) cs (ps.map (·.back n)) := by
  induction h with
  | nil => exact .nil
  | @blank o c cs ps hc _ ih =>
    have hto : o + c.utf8Size - n = o - n + c.utf8Size := by omega
    have := ih (by omega)
    rw [hto] at this
    exact .blank hc this
  | @word o k text rest ps hl _ ih =>
    have hto : o + byteLength text - n = o - n + byteLength text := by omega
    have := ih (by omega)
    rw [hto] at this
    exact .word hl this

/-- A cut that starts further from the start. -/
theorem Cut.forth (n : Nat) {o : Nat} {cs : List Char} {ps : List (Piece κ)} (h : L.Cut o cs ps) :
    L.Cut (o + n) cs (ps.map (·.forth n)) := by
  induction h with
  | nil => exact .nil
  | blank hc _ ih =>
    rw [Nat.add_right_comm] at ih
    exact .blank hc ih
  | word hl _ ih =>
    rw [Nat.add_right_comm] at ih
    exact .word hl ih

/-- Two texts with a gap between them that shuts the first one off. -/
theorem Cut.append {o : Nat} {cs gap ds : List Char} {ps qs : List (Piece κ)} (h : L.Cut o cs ps)
    (hgap : ∀ c ∈ gap, L.blank c = true) (hne : gap ≠ [])
    (hshut : ∀ c rest, L.blank c = true → L.Shut (c :: rest))
    (h' : L.Cut (o + byteLength (cs ++ gap)) ds qs) : L.Cut o (cs ++ gap ++ ds) (ps ++ qs) := by
  rw [← List.append_nil ps] at h
  obtain ⟨before, after, rfl, hafter, -, -, hgo⟩ := h.split
  have hblank : ∀ c ∈ after ++ gap, L.blank c = true :=
    List.forall_mem_append.2 ⟨hafter.blank_of_nil, hgap⟩
  have htail : L.Shut (after ++ gap ++ ds) := by
    obtain ⟨c, rest, hrest⟩ :=
      List.exists_cons_of_ne_nil (List.append_ne_nil_of_right_ne_nil after hne)
    rw [hrest] at hblank ⊢
    exact hshut c _ (hblank c (List.mem_cons_self ..))
  rw [List.append_assoc, byteLength_append, ← Nat.add_assoc] at h'
  have := hgo _ qs htail (.blanks hblank h')
  rwa [← List.append_assoc, ← List.append_assoc] at this

/-- A stretch of words taken out of a text, with something shut off put after it. -/
theorem Cut.middle {cs : List Char} {p : Piece κ} {ps qs rs : List (Piece κ)}
    (h : L.Cut 0 cs (ps ++ (p :: qs ++ rs))) :
    ∃ before mid after, cs = before ++ (mid ++ after) ∧ byteLength before = p.offset ∧
      (∀ q ∈ (p :: qs).getLast?, q.stop = p.offset + byteLength mid) ∧
      ∀ tail ts, L.Shut tail → L.Cut (p.offset + byteLength mid) tail ts →
        L.Cut 0 (mid ++ tail) ((p :: qs ++ ts).map (·.back p.offset)) := by
  obtain ⟨before, after, rfl, hafter, -⟩ := h.split
  obtain ⟨gap, rest, hgap, hblank, hp⟩ := hafter.uncons
  rw [hgap] at hafter ⊢
  have hcut := hafter.drop_gap hblank
  rw [← hp] at hcut
  obtain ⟨mid, after', hmid, hafter', -, hlast, hgo⟩ := hcut.split
  refine ⟨before ++ gap, mid, after', by rw [hmid, List.append_assoc], ?_, hlast,
    fun tail ts ht hts => ?_⟩
  · rw [byteLength_append, hp, Nat.zero_add]
  · have := (hgo tail ts ht hts).back (Nat.le_refl _)
    rwa [Nat.sub_self] at this

end Lexicon

end LetLang.Text
