import LetLang.Proofs.Token.Lexicon

/-!
What the scanners take: the longest word that starts a text. Where a scanner fails the text has no
cut at all. A number with a second point does have a longest word at its start, but nothing can
stand at that point.
-/

namespace LetLang.Lexer

open Text (byteLength isDigits isDigits_cons isDigit_of_mem head?_dropWhile_eq_false eq_nil_of_all
  takeWhile_append dropWhile_append)

/-- A word that starts with digits is a number. -/
theorem isWord_of_isDigits {k : TokenKind} {whole more : List Char} (h : isDigits whole)
    (hw : lexicon.IsWord k (whole ++ more)) :
    (k = .integer ∧ isDigits (whole ++ more)) ∨
      (k = .decimal ∧ ∃ whole' fraction, whole ++ more = whole' ++ '.' :: fraction ∧
        isDigits whole' ∧ isDigits fraction) := by
  obtain ⟨d, ds, rfl, hd⟩ := isDigits_cons h
  exact isWord_of_isDigit hd hw

/-! One lemma for each class: which word is the longest. -/

theorem longest_identifier {c : Char} (cs : List Char) (hc : isNameStart c) :
    lexicon.Longest .identifier (c :: cs.takeWhile isNameChar) (cs.dropWhile isNameChar) := by
  refine ⟨.identifier hc (List.all_eq_true.1 List.all_takeWhile), fun k' more after hrest hw => ?_⟩
  obtain ⟨-, hall⟩ := isWord_of_isNameStart hc hw
  exact eq_nil_of_all head?_dropWhile_eq_false hrest fun d hd => hall d (by simp [hd])

theorem longest_string {inner : List Char} (rest : List Char) (h : '"' ∉ inner) :
    lexicon.Longest .string ('"' :: inner ++ ['"']) rest := by
  refine ⟨.string h, fun k' more after _ hw => ?_⟩
  obtain ⟨-, inner', he, hi⟩ := isWord_of_quote hw
  -- a longer word would have the first closing quote inside
  rcases List.eq_nil_or_concat more with rfl | ⟨more, c, rfl⟩
  · rfl
  · have hin : inner ++ '"' :: more ++ [c] = inner' ++ ['"'] := by simpa using he
    rw [← (List.append_inj' hin rfl).1] at hi
    exact absurd (by simp) hi

/-- A digit after a point is a fraction. -/
theorem startsFraction_of_point {fraction after : List Char} (h : isDigits fraction) :
    startsFraction ('.' :: fraction ++ after) = true := by
  obtain ⟨d, ds, rfl, hd⟩ := isDigits_cons h
  exact hd

theorem longest_integer {whole rest : List Char} (h : isDigits whole)
    (hhead : ∀ c ∈ rest.head?, c.isDigit = false) (hf : startsFraction rest = false) :
    lexicon.Longest .integer whole rest := by
  refine ⟨.integer h, fun k' more after hrest hw => ?_⟩
  rcases isWord_of_isDigits h hw with ⟨-, hall⟩ | ⟨-, whole', fraction, he, hwhole, hfraction⟩
  · exact eq_nil_of_all hhead hrest fun c hc => isDigit_of_mem hall (by simp [hc])
  · -- the point would be the next character, and a fraction would start there
    cases more with
    | nil => rfl
    | cons c more =>
      have hc := hhead c (by simp [hrest])
      rcases List.append_eq_append_iff.1 he with ⟨gap, hgap, hmore⟩ | ⟨gap, hgap, hmore⟩
      · cases gap with
        | nil =>
          rw [List.nil_append] at hmore
          rw [hrest, hmore, startsFraction_of_point hfraction] at hf
          cases hf
        | cons e gap =>
          cases hmore
          rw [isDigit_of_mem hwhole (by simp [hgap])] at hc
          cases hc
      · cases gap with
        | nil =>
          rw [List.nil_append] at hmore
          rw [hrest, ← hmore, startsFraction_of_point hfraction] at hf
          cases hf
        | cons e gap =>
          cases hmore
          exact absurd (isDigit_of_mem h (c := '.') (by simp [hgap])) (by decide)

theorem longest_decimal {whole fraction rest : List Char} (hw : isDigits whole)
    (hf : isDigits fraction) (hhead : ∀ c ∈ rest.head?, c.isDigit = false) :
    lexicon.Longest .decimal (whole ++ '.' :: fraction) rest := by
  refine ⟨.decimal hw hf, fun k' more after hrest hword => ?_⟩
  rw [List.append_assoc, List.cons_append] at hword
  rcases isWord_of_isDigits hw hword with ⟨-, hall⟩ | ⟨-, whole', fraction', he, hw', hf'⟩
  · exact absurd hall not_isDigits_decimal
  · obtain ⟨-, hfraction⟩ :=
      Text.append_cons_injective (Text.point_not_mem hw) (Text.point_not_mem hw') he
    exact eq_nil_of_all hhead hrest fun c hc => isDigit_of_mem hf' (by simp [← hfraction, hc])

theorem longest_mark {c : Char} {rest : List Char} {m : Mark} (hc : Mark.ofChar? c = some m)
    (hne : rest.head? = some '=' → c ≠ '=' ∧ c ≠ '!') : lexicon.Longest (.mark m) [c] rest := by
  refine ⟨Mark.spelling_of_ofChar? hc ▸ .mark m, fun k' more after hrest hw => ?_⟩
  obtain ⟨m', -, hm⟩ := isWord_of_mark (by simp [hc]) hw
  -- only two marks are longer than a character
  cases more with
  | nil => rfl
  | cons d more =>
    subst hrest
    cases m' <;> simp [Mark.spelling] at hm <;> simp [← hm] at hne

theorem longest_two {c : Char} {rest : List Char} {m : Mark} (h : m.spelling = [c, '=']) :
    lexicon.Longest (.mark m) [c, '='] rest := by
  refine ⟨h ▸ .mark m, fun k' more after _ hw => ?_⟩
  have hc : (Mark.ofChar? c).isSome := by cases m <;> cases h <;> rfl
  obtain ⟨m', -, hm⟩ := isWord_of_mark hc hw
  cases m' <;> simp [Mark.spelling] at hm <;> exact hm.2

/-- The digits at the start of a text. -/
theorem exists_digits {c : Char} (cs : List Char) (hc : c.isDigit = true) :
    ∃ digits rest, c :: cs = digits ++ rest ∧ isDigits digits ∧
      ∀ d ∈ rest.head?, d.isDigit = false :=
  ⟨_, _, List.takeWhile_append_dropWhile.symm, by simp [isDigits, hc], head?_dropWhile_eq_false⟩

theorem scanNumber_integer {whole rest : List Char} (hw : isDigits whole)
    (hhead : ∀ c ∈ rest.head?, c.isDigit = false) (hf : startsFraction rest = false) :
    scanNumber (whole ++ rest) = .token .integer whole rest := by
  have hall := fun c hc => isDigit_of_mem hw (c := c) hc
  simp [scanNumber, takeWhile_append hall hhead, dropWhile_append hall hhead, hf]

theorem scanNumber_decimal {whole fraction rest : List Char} (hw : isDigits whole)
    (hf : isDigits fraction) (hhead : ∀ c ∈ rest.head?, c.isDigit = false) :
    scanNumber (whole ++ '.' :: (fraction ++ rest)) =
      if startsFraction rest then .failure (whole ++ '.' :: fraction) ['.'] .multipleDecimalPoints
      else .token .decimal (whole ++ '.' :: fraction) rest := by
  have hall := fun c hc => isDigit_of_mem hw (c := c) hc
  have hall' := fun c hc => isDigit_of_mem hf (c := c) hc
  have hpoint : ∀ c ∈ ('.' :: (fraction ++ rest)).head?, c.isDigit = false := by
    simp [show '.'.isDigit = false by decide]
  have hstart : startsFraction ('.' :: (fraction ++ rest)) = true := startsFraction_of_point hf
  simp [scanNumber, takeWhile_append hall hpoint, dropWhile_append hall hpoint, hstart,
    takeWhile_append hall' hhead, dropWhile_append hall' hhead]

theorem startsFraction_eq_true {rest : List Char} (h : startsFraction rest = true) :
    ∃ d ds, rest = '.' :: d :: ds ∧ d.isDigit = true := by
  unfold startsFraction at h
  split at h
  · exact ⟨_, _, rfl, h⟩
  · cases h

/-- The number at the start of a text, or the second point that forbids it. -/
theorem scanNumber_cases {c : Char} (cs : List Char) (hc : c.isDigit = true) :
    (∃ k text rest, c :: cs = text ++ rest ∧ lexicon.Longest k text rest ∧
      scanNumber (c :: cs) = .token k text rest) ∨
    (∃ text rest, c :: cs = text ++ '.' :: rest ∧ lexicon.Longest .decimal text ('.' :: rest) ∧
      scanNumber (c :: cs) = .failure text ['.'] .multipleDecimalPoints) := by
  obtain ⟨whole, rest, hcs, hw, hhead⟩ := exists_digits cs hc
  rw [hcs]
  cases hf : startsFraction rest with
  | false => exact .inl ⟨_, _, _, rfl, longest_integer hw hhead hf, scanNumber_integer hw hhead hf⟩
  | true =>
    obtain ⟨d, ds, rfl, hd⟩ := startsFraction_eq_true hf
    obtain ⟨fraction, rest, hds, hfraction, hhead'⟩ := exists_digits ds hd
    rw [hds]
    have hlong := longest_decimal hw hfraction hhead'
    have hscan := scanNumber_decimal hw hfraction hhead'
    cases hf' : startsFraction rest with
    | false =>
      rw [hf', if_neg Bool.false_ne_true] at hscan
      exact .inl ⟨_, _, rest, by simp, hlong, hscan⟩
    | true =>
      rw [hf', if_pos rfl] at hscan
      obtain ⟨d, ds, rfl, -⟩ := startsFraction_eq_true hf'
      exact .inr ⟨_, d :: ds, by simp, hlong, hscan⟩

theorem scanString_eq (cs : List Char) :
    (∃ inner rest, cs = inner ++ '"' :: rest ∧ '"' ∉ inner ∧
      scanString cs = .token .string ('"' :: inner ++ ['"']) rest) ∨
    ('"' ∉ cs ∧ scanString cs = .failure [] ('"' :: cs) .unclosedString) := by
  have hcut := List.takeWhile_append_dropWhile (p := fun c => decide (c ≠ '"')) (l := cs)
  have hin : '"' ∉ cs.takeWhile fun c => decide (c ≠ '"') := fun h => by
    simpa using List.all_eq_true.1 List.all_takeWhile _ h
  unfold scanString
  cases hd : cs.dropWhile fun c => decide (c ≠ '"') with
  | nil =>
    rw [hd, List.append_nil] at hcut
    exact .inr ⟨hcut ▸ hin, rfl⟩
  | cons c rest =>
    have hc : decide (c ≠ '"') = false := head?_dropWhile_eq_false c (by rw [hd]; rfl)
    obtain rfl : c = '"' := by simpa using hc
    exact .inl ⟨_, rest, by rw [← hd, hcut], hin, rfl⟩

theorem scanMark_cases (c : Char) (cs : List Char) :
    (∃ m text rest, c :: cs = text ++ rest ∧ lexicon.Longest (.mark m) text rest ∧
      scanMark c cs = .token (.mark m) text rest) ∨
    (Mark.ofChar? c = none ∧ scanMark c cs = .failure [] [c] (.unexpectedChar c)) := by
  unfold scanMark
  split
  · exact .inl ⟨_, _, _, rfl, longest_two rfl, rfl⟩
  · exact .inl ⟨_, _, _, rfl, longest_two rfl, rfl⟩
  · next h h' =>
    cases hm : Mark.ofChar? c with
    | none => exact .inr ⟨rfl, rfl⟩
    | some m =>
      refine .inl ⟨m, [c], cs, rfl, longest_mark hm fun hhead => ?_, rfl⟩
      obtain ⟨rest, rfl⟩ : ∃ rest, cs = '=' :: rest := by
        cases cs with
        | nil => cases hhead
        | cons d rest => exact ⟨rest, by simpa using hhead⟩
      exact ⟨fun hc => h rest hc rfl, fun hc => h' rest hc rfl⟩

/-- A text that starts no token and no blank stretch has no cut. -/
theorem not_cut_of_not_startsWord {o : Nat} {c : Char} {cs : List Char}
    {ps : List (Text.Piece TokenKind)} (hb : isBlank c = false) (hc : startsWord c = false) :
    ¬ lexicon.Cut o (c :: cs) ps := by
  refine Text.Lexicon.not_cut hb fun k t r ht hw => ?_
  obtain ⟨d, ds, rfl, hd⟩ := hw.startsWord
  cases ht
  rw [hc] at hd
  cases hd

/-- What stands at the start of a text: its longest word, or the start of no cut. -/
theorem scan_cases {c : Char} (cs : List Char) (hb : isBlank c = false) :
    (∃ k text rest, c :: cs = text ++ rest ∧ lexicon.Longest k text rest ∧
      scan c cs = .token k text rest) ∨
    ((∀ o ps, ¬ lexicon.Cut o (c :: cs) ps) ∧
      ∃ before covered e, scan c cs = .failure before covered e) := by
  unfold scan
  split
  · next hc =>
    subst hc
    rcases scanString_eq cs with ⟨inner, rest, rfl, hin, hscan⟩ | ⟨hin, hscan⟩
    · exact .inl ⟨_, _, rest, by simp, longest_string rest hin, hscan⟩
    · refine .inr ⟨fun o ps => Text.Lexicon.not_cut hb fun k t r ht hw => ?_, _, _, _, hscan⟩
      obtain ⟨d, ds, rfl, -⟩ := hw.startsWord
      obtain ⟨rfl, rfl⟩ := List.cons.inj ht
      obtain ⟨-, inner, rfl, -⟩ := isWord_of_quote hw
      exact hin (by simp)
  split
  · next hd =>
    rcases scanNumber_cases cs hd with h | ⟨text, rest, hcs, hlong, hscan⟩
    · exact .inl h
    · refine .inr ⟨fun o ps hcut => ?_, _, _, _, hscan⟩
      rw [hcs, Text.Lexicon.cut_longest_iff hlong] at hcut
      obtain ⟨qs, -, hcut⟩ := hcut
      exact not_cut_of_not_startsWord (by decide) (by decide) hcut
  split
  · next hn =>
    exact .inl ⟨_, _, _, by simp [List.takeWhile_append_dropWhile], longest_identifier cs hn, rfl⟩
  · next hq hd hn =>
    rcases scanMark_cases c cs with ⟨m, h⟩ | ⟨hc, hscan⟩
    · exact .inl ⟨_, h⟩
    · refine .inr ⟨fun o ps => not_cut_of_not_startsWord hb ?_, _, _, _, hscan⟩
      simp [startsWord, hq, hd, hn, hc]

end LetLang.Lexer
