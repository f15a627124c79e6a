import LetLang.Proofs.Text.Munch
import LetLang.Proofs.Text.Prefix
import LetLang.Token.Lexer

/-!
The lexical classes, and what the scanners take: the longest word that starts a text. Where a
scanner fails, the text has no cut at all. A number with a second point does have a longest word at
its start, but nothing can stand at that point.
-/

namespace LetLang.Lexer

open Text (Lexicon byteLength isDigits isDigits_cons isDigit_of_mem)

inductive IsWord : TokenKind → List Char → Prop
  | identifier {c : Char} {cs : List Char} (hc : isNameStart c) (hcs : ∀ d ∈ cs, isNameChar d) :
      IsWord .identifier (c :: cs)
  | integer {digits : List Char} (h : isDigits digits) : IsWord .integer digits
  | decimal {whole fraction : List Char} (hw : isDigits whole) (hf : isDigits fraction) :
      IsWord .decimal (whole ++ '.' :: fraction)
  | string {inner : List Char} (h : '"' ∉ inner) : IsWord .string ('"' :: inner ++ ['"'])
  | mark (m : Mark) : IsWord (.mark m) m.spelling

theorem IsWord.isDigits {digits : List Char} (h : IsWord .integer digits) :
    Text.isDigits digits := by
  generalize hk : TokenKind.integer = k at h
  cases h with
  | integer hd => exact hd
  | _ => cases hk

/-- The characters that some word starts with. -/
def startsWord (c : Char) : Bool :=
  c = '"' || c.isDigit || isNameStart c || (Mark.ofChar? c).isSome

theorem not_isBlank_of_startsWord {c : Char} (h : startsWord c) : isBlank c = false := by
  cases hb : isBlank c with
  | false => rfl
  | true =>
    simp only [isBlank, Bool.or_eq_true, decide_eq_true_eq] at hb
    rcases hb with ((rfl | rfl) | rfl) | rfl <;> exact absurd h (by decide)

theorem Mark.spelling_cons (m : Mark) : ∃ c cs, m.spelling = c :: cs ∧ (Mark.ofChar? c).isSome := by
  cases m <;> exact ⟨_, _, rfl, rfl⟩

theorem IsWord.startsWord {k : TokenKind} {text : List Char} (h : IsWord k text) :
    ∃ c cs, text = c :: cs ∧ startsWord c := by
  cases h with
  | identifier hc _ => exact ⟨_, _, rfl, by simp [Lexer.startsWord, hc]⟩
  | integer h =>
    obtain ⟨d, ds, rfl, hd⟩ := isDigits_cons h
    exact ⟨d, ds, rfl, by simp [Lexer.startsWord, hd]⟩
  | decimal hw _ =>
    obtain ⟨d, ds, rfl, hd⟩ := isDigits_cons hw
    exact ⟨d, _, rfl, by simp [Lexer.startsWord, hd]⟩
  | string _ => exact ⟨_, _, rfl, by decide⟩
  | mark m =>
    obtain ⟨c, cs, hm, hc⟩ := Mark.spelling_cons m
    exact ⟨c, cs, hm, by simp [Lexer.startsWord, hc]⟩

/-! The four ways in which a text can start a word exclude one another. -/

theorem isDigit_of_isNameStart {c : Char} (h : isNameStart c) : c.isDigit = false := by
  simp only [isNameStart, Bool.or_eq_true, decide_eq_true_eq] at h
  rcases h with h | rfl
  · exact Text.isDigit_of_isAlpha h
  · decide

theorem isNameStart_of_isDigit {c : Char} (h : c.isDigit = true) : isNameStart c = false := by
  cases hn : isNameStart c with
  | false => rfl
  | true => rw [isDigit_of_isNameStart hn] at h; cases h

theorem ofChar?_of_isNameStart {c : Char} (h : isNameStart c) : Mark.ofChar? c = none := by
  unfold Mark.ofChar?
  split <;> first | rfl | exact absurd h (by decide)

theorem ofChar?_of_isDigit {c : Char} (h : c.isDigit = true) : Mark.ofChar? c = none := by
  unfold Mark.ofChar?
  split <;> first | rfl | exact absurd h (by decide)

theorem ne_quote_of_isNameStart {c : Char} (h : isNameStart c) : c ≠ '"' := by
  rintro rfl
  exact absurd h (by decide)

theorem ne_quote_of_isDigit {c : Char} (h : c.isDigit = true) : c ≠ '"' := by
  rintro rfl
  exact absurd h (by decide)

/-! What a word is that starts with a given character. -/

theorem isWord_cons {k : TokenKind} {c : Char} {cs : List Char} (h : IsWord k (c :: cs)) :
    (isNameStart c ∧ k = .identifier ∧ ∀ d ∈ cs, isNameChar d) ∨
      (c.isDigit = true ∧ ((k = .integer ∧ isDigits (c :: cs)) ∨
        (k = .decimal ∧ ∃ whole fraction, c :: cs = whole ++ '.' :: fraction ∧ isDigits whole ∧
          isDigits fraction))) ∨
      (c = '"' ∧ k = .string ∧ ∃ inner, cs = inner ++ ['"'] ∧ '"' ∉ inner) ∨
      ((Mark.ofChar? c).isSome ∧ ∃ m, k = .mark m ∧ m.spelling = c :: cs) := by
  generalize ht : c :: cs = text at h ⊢
  cases h with
  | identifier hc hcs => cases ht; exact .inl ⟨hc, rfl, hcs⟩
  | integer h =>
    subst ht
    exact .inr (.inl ⟨isDigit_of_mem h (by simp), .inl ⟨rfl, h⟩⟩)
  | decimal hw hf =>
    obtain ⟨d, ds, rfl, hd⟩ := isDigits_cons hw
    obtain ⟨rfl, -⟩ := List.cons.inj ht
    exact .inr (.inl ⟨hd, .inr ⟨rfl, _, _, rfl, hw, hf⟩⟩)
  | string hi => cases ht; exact .inr (.inr (.inl ⟨rfl, rfl, _, rfl, hi⟩))
  | mark m =>
    obtain ⟨d, ds, hm, hd⟩ := Mark.spelling_cons m
    rw [hm] at ht ⊢
    cases ht
    exact .inr (.inr (.inr ⟨hd, m, rfl, hm⟩))

theorem isWord_of_isNameStart {k : TokenKind} {c : Char} {cs : List Char} (hc : isNameStart c)
    (h : IsWord k (c :: cs)) : k = .identifier ∧ ∀ d ∈ cs, isNameChar d := by
  have := isWord_cons h
  simpa [hc, isDigit_of_isNameStart hc, ofChar?_of_isNameStart hc, ne_quote_of_isNameStart hc]

theorem isWord_of_isDigit {k : TokenKind} {c : Char} {cs : List Char} (hc : c.isDigit = true)
    (h : IsWord k (c :: cs)) :
    (k = .integer ∧ isDigits (c :: cs)) ∨
      (k = .decimal ∧ ∃ whole fraction, c :: cs = whole ++ '.' :: fraction ∧ isDigits whole ∧
        isDigits fraction) := by
  have := isWord_cons h
  simpa [hc, isNameStart_of_isDigit hc, ofChar?_of_isDigit hc, ne_quote_of_isDigit hc]

theorem isWord_of_quote {k : TokenKind} {cs : List Char} (h : IsWord k ('"' :: cs)) :
    k = .string ∧ ∃ inner, cs = inner ++ ['"'] ∧ '"' ∉ inner := by
  have := isWord_cons h
  simpa [show isNameStart '"' = false by decide, show '"'.isDigit = false by decide,
    show Mark.ofChar? '"' = none by decide]

theorem isWord_of_mark {k : TokenKind} {c : Char} {cs : List Char}
    (hc : (Mark.ofChar? c).isSome) (h : IsWord k (c :: cs)) :
    ∃ m, k = .mark m ∧ m.spelling = c :: cs := by
  rcases isWord_cons h with ⟨hn, -⟩ | ⟨hd, -⟩ | ⟨rfl, -⟩ | ⟨-, hm⟩
  · rw [ofChar?_of_isNameStart hn] at hc; cases hc
  · rw [ofChar?_of_isDigit hd] at hc; cases hc
  · cases hc
  · exact hm

theorem not_isDigits_decimal {whole fraction : List Char} : ¬ isDigits (whole ++ '.' :: fraction) :=
  fun h => absurd (isDigit_of_mem h (c := '.') (by simp)) (by decide)

theorem IsWord.kind_unique {k k' : TokenKind} {text : List Char} (h : IsWord k text)
    (h' : IsWord k' text) : k = k' := by
  obtain ⟨c, cs, rfl, hc⟩ := h.startsWord
  simp only [Lexer.startsWord, Bool.or_eq_true, decide_eq_true_eq] at hc
  rcases hc with ((rfl | hc) | hc) | hc
  · rw [(isWord_of_quote h).1, (isWord_of_quote h').1]
  · rcases isWord_of_isDigit hc h with ⟨rfl, hd⟩ | ⟨rfl, _, _, ht, -⟩ <;>
      rcases isWord_of_isDigit hc h' with ⟨rfl, hd'⟩ | ⟨rfl, _, _, ht', -⟩
    · rfl
    · exact absurd (ht' ▸ hd) not_isDigits_decimal
    · exact absurd (ht ▸ hd') not_isDigits_decimal
    · rfl
  · rw [(isWord_of_isNameStart hc h).1, (isWord_of_isNameStart hc h').1]
  · obtain ⟨m, rfl, hm⟩ := isWord_of_mark hc h
    obtain ⟨m', rfl, hm'⟩ := isWord_of_mark hc h'
    rw [Mark.spelling_injective (hm.trans hm'.symm)]

/-- The words of the language, with blanks between them. -/
def lexicon : Lexicon TokenKind where
  blank := isBlank
  IsWord := IsWord
  starts h :=
    let ⟨c, cs, ht, hc⟩ := h.startsWord
    ⟨c, cs, ht, not_isBlank_of_startsWord hc⟩
  kind_unique := IsWord.kind_unique

end LetLang.Lexer
