import LetLang.Proofs.Token.Failures
import LetLang.Proofs.Token.Lexemes

/-!
Where a text stops being lexed. An offence is something that no token can stand for: a character
that starts no word, a quote that is never closed, a number with a second point. A text breaks off
at an offence if what stands before it has a cut, and no word of that cut could be prolonged. A text
can break off at several places, since a number with a second point may be cut before that point
too; the lexer stops at the first of them.
-/

namespace LetLang.Lexer

open Text (Piece byteLength byteLength_append byteLength_cons isDigits isDigits_cons isDigit_of_mem)

/-! A word is prolonged character by character, except that a point alone does not end a number. -/

theorem isDigits_of_append {cs ds : List Char} (h : isDigits (cs ++ ds)) (hne : cs ≠ []) :
    isDigits cs := by
  simp only [isDigits, Bool.and_eq_true, List.all_append] at h ⊢
  exact ⟨by simp [hne], h.2.1⟩

/-- What a number goes on with is a digit or the point. -/
theorem isWord_concat_of_decimal {whole fraction text more : List Char} {c : Char}
    (hw : isDigits whole) (hf : isDigits fraction) (hne : text ≠ [])
    (h : text ++ c :: more = whole ++ '.' :: fraction) (hc : c ≠ '.') :
    ∃ k, IsWord k (text ++ [c]) := by
  rcases List.append_eq_append_iff.1 h with ⟨gap, rfl, hgap⟩ | ⟨gap, rfl, hgap⟩
  · cases gap with
    | nil => exact absurd (List.cons.inj hgap).1 hc
    | cons d gap =>
      obtain ⟨rfl, rfl⟩ := List.cons.inj hgap
      exact ⟨.integer, .integer (isDigits_of_append (by simpa using hw) (by simp))⟩
  · cases gap with
    | nil => exact absurd (List.cons.inj hgap).1.symm hc
    | cons d gap =>
      obtain ⟨rfl, rfl⟩ := List.cons.inj hgap
      have hfraction : isDigits ((gap ++ [c]) ++ more) := by simpa using hf
      have := isDigits_of_append hfraction (by simp)
      exact ⟨.decimal, by simpa using IsWord.decimal hw this⟩

theorem isWord_concat {k k' : TokenKind} {text more : List Char} {c : Char} (h : IsWord k text)
    (h' : IsWord k' (text ++ c :: more)) (hc : c ≠ '.') : ∃ k'', IsWord k'' (text ++ [c]) := by
  obtain ⟨d, ds, rfl, hd⟩ := h.startsWord
  simp only [startsWord, Bool.or_eq_true, decide_eq_true_eq] at hd
  rcases hd with ((rfl | hd) | hd) | hd
  · -- a string is not prolonged at all
    obtain ⟨-, inner, rfl, hin⟩ := isWord_of_quote h
    exact absurd ((longest_string (c :: more) hin).2 k' _ [] (by simp) h') (by simp)
  · rcases isWord_of_isDigit hd h' with ⟨-, hall⟩ | ⟨-, whole, fraction, he, hw, hf⟩
    · have hall' : isDigits ((d :: ds ++ [c]) ++ more) := by simpa using hall
      exact ⟨.integer, .integer (isDigits_of_append hall' (by simp))⟩
    · exact isWord_concat_of_decimal hw hf (by simp) he hc
  · obtain ⟨-, hall⟩ := isWord_of_isNameStart hd h'
    refine ⟨.identifier, .identifier hd fun e he => hall e ?_⟩
    rcases List.mem_append.1 he with he | he
    · exact List.mem_append_left _ he
    · simp [List.mem_singleton.1 he]
  · obtain ⟨m, rfl, hm⟩ := isWord_of_mark hd h'
    -- no mark has more than two characters
    have hlen : m.spelling.length ≤ 2 := by cases m <;> decide
    have hadd := congrArg List.length hm
    simp only [List.append_eq, List.length_cons, List.length_append] at hadd
    obtain rfl : more = [] := List.eq_nil_of_length_eq_zero (by omega)
    exact ⟨_, h'⟩

/-- Which word is the longest shows from the next character, unless that is a point. -/
theorem longest_of_head {k : TokenKind} {text rest rest' : List Char} {c : Char} (hc : c ≠ '.')
    (h : lexicon.Longest k text (c :: rest)) : lexicon.Longest k text (c :: rest') := by
  refine ⟨h.1, fun k' more after hrest hw => ?_⟩
  cases more with
  | nil => rfl
  | cons d more =>
    obtain ⟨rfl, -⟩ := List.cons.inj hrest
    obtain ⟨k'', hw'⟩ := isWord_concat h.1 hw hc
    cases h.2 k'' [c] rest rfl hw'

theorem startsWord_iff {c : Char} : startsWord c ↔ ∃ k text, IsWord k (c :: text) := by
  refine ⟨fun h => ?_, ?_⟩
  · simp only [startsWord, Bool.or_eq_true, decide_eq_true_eq] at h
    rcases h with ((rfl | h) | h) | h
    · exact ⟨_, _, @IsWord.string [] (by simp)⟩
    · exact ⟨_, _, @IsWord.integer [c] (by simp [isDigits, h])⟩
    · exact ⟨_, _, @IsWord.identifier c [] h (by simp)⟩
    · obtain ⟨m, hm⟩ := Option.isSome_iff_exists.1 h
      have := IsWord.mark m
      rw [Mark.spelling_of_ofChar? hm] at this
      exact ⟨_, _, this⟩
  · rintro ⟨k, text, h⟩
    obtain ⟨d, ds, hd, hstart⟩ := h.startsWord
    obtain ⟨rfl, -⟩ := List.cons.inj hd
    exact hstart

/-- What no token can stand for at the start of a text, with the error about it. The text starts at
offset `o`. -/
inductive Offence (o : Nat) : List Char → Located LexError → Prop
  | character {c : Char} {cs : List Char} (hb : isBlank c = false)
      (hc : ∀ k text, ¬ IsWord k (c :: text)) :
      Offence o (c :: cs) ⟨⟨o, c.utf8Size⟩, .unexpectedChar c⟩
  | quote {cs : List Char} (h : '"' ∉ cs) :
      Offence o ('"' :: cs) ⟨⟨o, byteLength ('"' :: cs)⟩, .unclosedString⟩
  | point {whole fraction cs : List Char} {d : Char} (hw : isDigits whole) (hf : isDigits fraction)
      (hd : d.isDigit = true) :
      Offence o (whole ++ '.' :: (fraction ++ '.' :: d :: cs))
        ⟨⟨o + byteLength (whole ++ '.' :: fraction), 1⟩, .multipleDecimalPoints⟩

/-- An offence opens with a character that is not a blank. -/
theorem Offence.cons {o : Nat} {cs : List Char} {e : Located LexError} (h : Offence o cs e) :
    ∃ c rest, cs = c :: rest ∧ isBlank c = false := by
  cases h with
  | character hb _ => exact ⟨_, _, rfl, hb⟩
  | quote _ => exact ⟨_, _, rfl, by decide⟩
  | point hw _ _ =>
    obtain ⟨d, ds, rfl, hd⟩ := isDigits_cons hw
    exact ⟨d, _, rfl, not_isBlank_of_startsWord (by simp [startsWord, hd])⟩

theorem scan_of_not_startsWord {c : Char} (cs : List Char) (h : startsWord c = false) :
    scan c cs = .failure [] [c] (.unexpectedChar c) := by
  simp only [startsWord, Bool.or_eq_false_iff, decide_eq_false_iff_not, Option.isSome_eq_false_iff,
    Option.isNone_iff_eq_none] at h
  obtain ⟨⟨⟨hq, hd⟩, hn⟩, hm⟩ := h
  rw [scan, if_neg hq, if_neg (by simp [hd]), if_neg (by simp [hn])]
  unfold scanMark
  split
  · cases hm
  · cases hm
  · rw [hm]

theorem offence_of_scanNumber {o : Nat} {c : Char} {cs before covered : List Char} {e : LexError}
    (hc : c.isDigit = true) (h : scanNumber (c :: cs) = .failure before covered e) :
    Offence o (c :: cs) ⟨⟨o + byteLength before, byteLength covered⟩, e⟩ := by
  obtain ⟨whole, rest, hcs, hw, hhead⟩ := exists_digits cs hc
  rw [hcs] at h ⊢
  by_cases hpoint : startsFraction rest = true
  · obtain ⟨d, ds, rfl, hd⟩ := startsFraction_eq_true hpoint
    obtain ⟨fraction, rest, hds, hf, hhead'⟩ := exists_digits ds hd
    rw [hds] at h ⊢
    rw [scanNumber_decimal hw hf hhead'] at h
    by_cases hpoint' : startsFraction rest = true
    · obtain ⟨d', ds', rfl, hd'⟩ := startsFraction_eq_true hpoint'
      rw [if_pos hpoint'] at h
      cases h
      exact .point hw hf hd'
    · rw [if_neg hpoint'] at h
      cases h
  · rw [scanNumber_integer hw hhead (by simpa using hpoint)] at h
    cases h

theorem offence_of_scan {o : Nat} {c : Char} {cs before covered : List Char} {e : LexError}
    (hb : isBlank c = false) (h : scan c cs = .failure before covered e) :
    Offence o (c :: cs) ⟨⟨o + byteLength before, byteLength covered⟩, e⟩ := by
  by_cases hstart : startsWord c = true
  · unfold scan at h
    split at h
    · next hq =>
      subst hq
      rcases scanString_eq cs with ⟨inner, rest, -, -, hscan⟩ | ⟨hin, hscan⟩
      · cases hscan.symm.trans h
      · cases hscan.symm.trans h
        exact .quote hin
    split at h
    · next hd => exact offence_of_scanNumber hd h
    split at h
    · cases h
    · next hq hd hn =>
      rcases scanMark_cases c cs with ⟨m, text, rest, -, -, hscan⟩ | ⟨hm, -⟩
      · cases hscan.symm.trans h
      · simp [startsWord, hq, hd, hn, hm] at hstart
  · rw [scan_of_not_startsWord cs (by simpa using hstart)] at h
    cases h
    exact .character hb fun k text hw => hstart (startsWord_iff.2 ⟨k, text, hw⟩)

theorem scan_of_offence {o : Nat} {c : Char} {cs : List Char} {e : Located LexError}
    (h : Offence o (c :: cs) e) :
    ∃ before covered error, scan c cs = .failure before covered error ∧
      e = ⟨⟨o + byteLength before, byteLength covered⟩, error⟩ := by
  generalize hcs : c :: cs = text at h
  cases h with
  | character hb hc =>
    obtain ⟨rfl, rfl⟩ := List.cons.inj hcs
    have hstart : startsWord c = false := by
      rw [Bool.eq_false_iff]
      intro h
      obtain ⟨k, text, hw⟩ := startsWord_iff.1 h
      exact hc k text hw
    exact ⟨[], [c], _, scan_of_not_startsWord cs hstart, by simp⟩
  | quote hin =>
    obtain ⟨rfl, rfl⟩ := List.cons.inj hcs
    rcases scanString_eq cs with ⟨inner, rest, rfl, -, -⟩ | ⟨-, hscan⟩
    · exact absurd (by simp) hin
    · exact ⟨[], '"' :: cs, _, hscan, by simp⟩
  | @point whole fraction rest d hw hf hd =>
    obtain ⟨c', ds, hds, hc⟩ := isDigits_cons hw
    obtain rfl : c' = c := by
      rw [hds] at hcs
      exact (List.cons.inj hcs).1.symm
    have hq := ne_quote_of_isDigit hc
    have hhead : ∀ c ∈ ('.' :: d :: rest).head?, c.isDigit = false := by
      simp [show '.'.isDigit = false by decide]
    have hscan := scanNumber_decimal hw hf hhead
    rw [if_pos (show startsFraction ('.' :: d :: rest) = true from hd), ← hcs] at hscan
    refine ⟨whole ++ '.' :: fraction, ['.'], _, ?_, rfl⟩
    rw [scan, if_neg hq, if_pos hc, hscan]

/-- At one place there is one offence. -/
theorem Offence.unique {o : Nat} {cs : List Char} {e e' : Located LexError} (h : Offence o cs e)
    (h' : Offence o cs e') : e = e' := by
  obtain ⟨c, cs, rfl, -⟩ := h.cons
  obtain ⟨before, covered, error, hscan, rfl⟩ := scan_of_offence h
  obtain ⟨before', covered', error', hscan', rfl⟩ := scan_of_offence h'
  cases hscan.symm.trans hscan'
  rfl

theorem Offence.not_cut {o : Nat} {cs : List Char} {e : Located LexError} (h : Offence o cs e) :
    ∀ o' ps, ¬ lexicon.Cut o' cs ps := by
  obtain ⟨c, cs, rfl, hb⟩ := h.cons
  obtain ⟨before, covered, error, hscan, -⟩ := scan_of_offence h
  rcases scan_cases cs hb with ⟨k, text, rest, -, -, hscan'⟩ | ⟨hcut, -⟩
  · cases hscan.symm.trans hscan'
  · exact hcut

/-- A text that starts at offset `o`, cut up to offset `m`, where an offence stands. -/
inductive Breaks : Nat → List Char → List (Piece TokenKind) → Nat → Located LexError → Prop
  | here {o : Nat} {cs : List Char} {e : Located LexError} :
      Offence o cs e → Breaks o cs [] o e
  | blank {o m : Nat} {c : Char} {cs : List Char} {ps : List (Piece TokenKind)}
      {e : Located LexError} :
      isBlank c → Breaks (o + c.utf8Size) cs ps m e → Breaks o (c :: cs) ps m e
  | word {o m : Nat} {k : TokenKind} {text rest : List Char} {ps : List (Piece TokenKind)}
      {e : Located LexError} :
      lexicon.Longest k text rest → Breaks (o + byteLength text) rest ps m e →
      Breaks o (text ++ rest) (⟨o, k, text⟩ :: ps) m e

theorem Breaks.le {o m : Nat} {cs : List Char} {ps : List (Piece TokenKind)} {e : Located LexError}
    (h : Breaks o cs ps m e) : o ≤ m := by
  induction h with
  | here _ => exact Nat.le_refl _
  | blank _ _ ih => omega
  | word _ _ ih => omega

theorem Breaks.not_cut {o m : Nat} {cs : List Char} {ps : List (Piece TokenKind)}
    {e : Located LexError} (h : Breaks o cs ps m e) : ∀ qs, ¬ lexicon.Cut o cs qs := by
  induction h with
  | here hoff => exact hoff.not_cut _
  | blank hc _ ih =>
    intro qs hcut
    exact ih qs ((Text.Lexicon.cut_blank_iff (L := lexicon) hc).1 hcut)
  | word hlong _ ih =>
    intro qs hcut
    obtain ⟨qs, -, hcut⟩ := (Text.Lexicon.cut_longest_iff hlong).1 hcut
    exact ih qs hcut

theorem Breaks.of_blank {o m : Nat} {c : Char} {cs : List Char} {ps : List (Piece TokenKind)}
    {e : Located LexError} (hc : isBlank c) (h : Breaks o (c :: cs) ps m e) :
    Breaks (o + c.utf8Size) cs ps m e := by
  generalize hcs : c :: cs = all at h
  cases h with
  | here hoff =>
    obtain ⟨d, rest, rfl, hd⟩ := hoff.cons
    obtain ⟨rfl, -⟩ := List.cons.inj hcs
    rw [hc] at hd
    cases hd
  | blank _ h =>
    obtain ⟨rfl, rfl⟩ := List.cons.inj hcs
    exact h
  | word hlong _ =>
    obtain ⟨d, ds, rfl, hd⟩ := lexicon.starts hlong.1
    obtain ⟨rfl, -⟩ := List.cons.inj hcs
    exact absurd (hc.symm.trans hd) (by decide)

/-- Where a word is scanned, a text breaks off only behind it. -/
theorem Breaks.of_scan {o m : Nat} {c : Char} {cs text rest : List Char} {k : TokenKind}
    {ps : List (Piece TokenKind)} {e : Located LexError} (hb : isBlank c = false)
    (hscan : scan c cs = .token k text rest) (h : Breaks o (c :: cs) ps m e) :
    Breaks (o + byteLength text) rest ps.tail m e := by
  generalize hcs : c :: cs = all at h
  cases h with
  | here hoff =>
    subst hcs
    obtain ⟨before, covered, error, hscan', -⟩ := scan_of_offence hoff
    cases hscan.symm.trans hscan'
  | blank hc _ =>
    obtain ⟨rfl, -⟩ := List.cons.inj hcs
    rw [hc] at hb
    cases hb
  | word hlong h =>
    rcases scan_cases cs hb with ⟨k', text', rest', hcs', hlong', hscan'⟩ | ⟨-, _, _, _, hscan'⟩
    · cases hscan.symm.trans hscan'
      obtain ⟨rfl, rfl, rfl⟩ := hlong'.unique hlong (hcs'.symm.trans hcs)
      exact h
    · cases hscan.symm.trans hscan'

/-- A text on which lexing fails breaks off there, and nowhere before. -/
theorem breaks_of_lexFrom {o : Nat} {cs : List Char} {kept : List Token}
    {f : Failure (Located LexError)} (hlen : o + byteLength cs ≤ Span.maxLength)
    (h : lexFrom o cs = ⟨kept, some f⟩) :
    ∃ ps m e, Breaks o cs ps m e ∧ kept = ps.map tokenOf ∧ f = .error e ∧
      ∀ ps' m' e', Breaks o cs ps' m' e' → m ≤ m' := by
  fun_induction lexFrom o cs generalizing kept with
  | case1 => cases h
  | case2 o hspan =>
    have := ofBounds?_of_le (n := 0) hlen
    rw [Nat.add_zero, hspan] at this
    cases this
  | case3 o c cs hc ih =>
    rw [byteLength_cons, ← Nat.add_assoc] at hlen
    obtain ⟨ps, m, e, hbreaks, hkept, hf, hleast⟩ := ih hlen h
    exact ⟨ps, m, e, .blank hc hbreaks, hkept, hf, fun ps' m' e' h' =>
      hleast ps' m' e' (h'.of_blank hc)⟩
  | case4 o c cs hb k text rest hscan hlt after span hspan =>
    rename_i ih
    have hb : isBlank c = false := by simpa using hb
    rcases scan_cases cs hb with ⟨_, _, _, hcs, hlong, hscan'⟩ | ⟨-, _, _, _, hscan'⟩
    · cases hscan.symm.trans hscan'
      rw [hcs, byteLength_append, ← Nat.add_assoc] at hlen
      have hfits := @ofBounds?_of_le o (byteLength text) (by omega)
      cases hspan.symm.trans hfits
      generalize hrest : lexFrom after rest = l at h ih
      obtain ⟨tokens, f'⟩ := l
      cases h
      obtain ⟨ps, m, e, hbreaks, rfl, hf, hleast⟩ := ih hlen rfl
      refine ⟨⟨o, k, text⟩ :: ps, m, e, ?_, rfl, hf, fun ps' m' e' h' => ?_⟩
      · rw [hcs]
        exact .word hlong hbreaks
      · exact hleast _ m' e' (h'.of_scan hb hscan)
    · cases hscan.symm.trans hscan'
  | case5 o c cs hb k text rest hscan hlt after =>
    rename_i hspan
    obtain ⟨hcs, -⟩ := scan_eq_token hscan
    rw [hcs, byteLength_append] at hlen
    have := @ofBounds?_of_le o (byteLength text) (by omega)
    cases hspan.symm.trans this
  | case6 o c cs hb before covered error hscan lo span =>
    rename_i hspan
    obtain ⟨after, hcs⟩ := scan_eq_failure hscan
    rw [hcs, byteLength_append, byteLength_append] at hlen
    have := @ofBounds?_of_le (o + byteLength before) (byteLength covered) (by omega)
    cases hspan.symm.trans this
    cases h
    exact ⟨[], o, _, .here (offence_of_scan (by simpa using hb) hscan), rfl, rfl,
      fun ps' m' e' h' => h'.le⟩
  | case7 o c cs hb before covered error hscan lo =>
    rename_i hspan
    obtain ⟨after, hcs⟩ := scan_eq_failure hscan
    rw [hcs, byteLength_append, byteLength_append] at hlen
    have := @ofBounds?_of_le (o + byteLength before) (byteLength covered) (by omega)
    cases hspan.symm.trans this

/-- The words before the offence are cut from the text before it, and are the longest in the whole
text too. -/
theorem Breaks.divide {o m : Nat} {cs : List Char} {ps : List (Piece TokenKind)}
    {e : Located LexError} (h : Breaks o cs ps m e) :
    ∃ before rest, cs = before ++ rest ∧ m = o + byteLength before ∧ lexicon.Cut o before ps ∧
      Offence m rest e ∧ ∀ p ∈ ps, ∃ start after, cs = start ++ (p.word.text ++ after) ∧
        p.offset = o + byteLength start ∧ lexicon.Longest p.word.kind p.word.text after := by
  induction h with
  | @here o cs e hoff => exact ⟨[], cs, rfl, by simp, .nil, hoff, by simp⟩
  | @blank o m c cs ps e hc _ ih =>
    obtain ⟨before, rest, rfl, rfl, hcut, hoff, hplaced⟩ := ih
    refine ⟨c :: before, rest, rfl, by rw [byteLength_cons, Nat.add_assoc], .blank hc hcut, hoff,
      fun p hp => ?_⟩
    obtain ⟨start, after, hs, ho, hlong⟩ := hplaced p hp
    exact ⟨c :: start, after, by rw [hs]; rfl, by rw [ho, byteLength_cons, Nat.add_assoc], hlong⟩
  | @word o m k text rest ps e hlong _ ih =>
    obtain ⟨before, rest, rfl, rfl, hcut, hoff, hplaced⟩ := ih
    refine ⟨text ++ before, rest, by simp, by rw [byteLength_append, Nat.add_assoc], ?_, hoff, ?_⟩
    · have := hlong.shut Text.Lexicon.shut_nil
      rw [List.append_nil] at this
      exact .word this hcut
    · refine List.forall_mem_cons.2 ⟨⟨[], _, rfl, by simp, hlong⟩, fun p hp => ?_⟩
      obtain ⟨start, after, hs, ho, hlong⟩ := hplaced p hp
      exact ⟨text ++ start, after, by rw [hs]; simp, by rw [ho, byteLength_append, Nat.add_assoc],
        hlong⟩

/-- An offence after a cut, where the last word of the cut does not go on into the offence. The
words before the last need no such condition: what stands behind them shows in the cut. -/
theorem breaks_of_cut {o m : Nat} {before rest : List Char} {ps : List (Piece TokenKind)}
    {e : Located LexError} (h : lexicon.Cut o before ps) (hm : m = o + byteLength before)
    (hoff : Offence m rest e)
    (hlast : ∀ p ∈ ps.getLast?, ∀ start after, before ++ rest = start ++ (p.word.text ++ after) →
      p.offset = o + byteLength start → lexicon.Longest p.word.kind p.word.text after) :
    Breaks o (before ++ rest) ps m e := by
  induction h with
  | nil =>
    rw [Text.byteLength_nil, Nat.add_zero] at hm
    subst hm
    exact .here hoff
  | @blank o c cs ps hc _ ih =>
    rw [byteLength_cons, ← Nat.add_assoc] at hm
    refine .blank hc (ih hm fun p hp start after hs ho => ?_)
    refine hlast p hp (c :: start) after (by rw [List.cons_append, hs]; rfl) ?_
    rw [ho, byteLength_cons, Nat.add_assoc]
  | @word o k text after ps hlong hcut ih =>
    rw [byteLength_append, ← Nat.add_assoc] at hm
    rw [List.append_assoc]
    refine .word ?_ (ih hm fun p hp start after hs ho => ?_)
    · cases after with
      | nil =>
        obtain rfl := Text.Lexicon.cut_nil_iff.1 hcut
        exact hlast _ rfl [] rest (by simp) (by simp)
      | cons c after =>
        refine longest_of_head ?_ hlong
        rintro rfl
        exact not_cut_of_not_startsWord (by decide) (by decide) hcut
    · have hne : ps ≠ [] := by
        rintro rfl
        cases hp
      refine hlast p ?_ (text ++ start) after (by rw [List.append_assoc, hs]; simp) ?_
      · rwa [List.getLast?_cons_of_ne_nil hne]
      · rw [ho, byteLength_append, Nat.add_assoc]

/-- The source can be lexed up to offset `m`, where an offence stands, and the last token found till
then is not the start of a longer word. -/
structure FailsAt (source : List Char) (m : Nat) (kept : List Token) (e : Located LexError) :
    Prop where
  divided : ∃ before c rest, source = before ++ c :: rest ∧ byteLength before = m ∧
    isBlank c = false ∧ lex (String.ofList before) = ⟨kept ++ [eofAt m], none⟩ ∧
    Offence m (c :: rest) e
  longest : ∀ t ∈ kept.getLast?, ∀ k before text after, source = before ++ (text ++ after) →
    byteLength before = t.span.lo → IsWord k text → byteLength text ≤ t.span.len

theorem failsAt_iff {source : List Char} {m : Nat} {kept : List Token} {e : Located LexError}
    (hlen : byteLength source ≤ Span.maxLength) :
    FailsAt source m kept e ↔ ∃ ps, kept = ps.map tokenOf ∧ Breaks 0 source ps m e := by
  refine ⟨fun h => ?_, ?_⟩
  · obtain ⟨before, c, rest, rfl, rfl, -, hlex, hoff⟩ := h.divided
    obtain ⟨ps, hcut, hkept, -⟩ := exists_cut_of_lex hlex
    rw [String.toList_ofList] at hcut hkept
    obtain rfl := List.append_cancel_right hkept
    refine ⟨ps, rfl, breaks_of_cut hcut (by simp) hoff fun p hp start after hs ho => ?_⟩
    rw [Nat.zero_add] at ho
    have hmem := List.mem_of_getLast? hp
    refine (longest_iff start).2 ⟨hcut.isWord p hmem, fun k' before' text' after' hs' hlo hw => ?_⟩
    exact h.longest (tokenOf p) (by simp [List.getLast?_map, Option.mem_def.1 hp]) k' before' text'
      after' (hs.trans hs') (hlo.trans ho.symm) hw
  · rintro ⟨ps, rfl, h⟩
    obtain ⟨before, rest, rfl, hm, hcut, hoff, hplaced⟩ := h.divide
    rw [Nat.zero_add] at hm
    subst hm
    obtain ⟨c, rest, rfl, hc⟩ := hoff.cons
    refine ⟨⟨before, c, rest, rfl, rfl, hc, ?_, hoff⟩, ?_⟩
    · rw [byteLength_append] at hlen
      rw [← String.toList_ofList (l := before)] at hcut
      have := lex_of_cut (by rw [String.toList_ofList]; omega) hcut
      rwa [String.toList_ofList] at this
    · intro t ht k' before' text' after' hs' hlo hw
      obtain ⟨p, hp, rfl⟩ := List.mem_map.1 (List.mem_of_getLast? ht)
      obtain ⟨start, after, hs, ho, hlong⟩ := hplaced p hp
      rw [Nat.zero_add] at ho
      exact ((longest_iff start).1 hlong).2 k' before' text' after' (hs.symm.trans hs')
        (hlo.trans ho) hw

theorem FailsAt.unique {source : List Char} {m : Nat} {kept kept' : List Token}
    {e e' : Located LexError} (h : FailsAt source m kept e) (h' : FailsAt source m kept' e') :
    kept = kept' ∧ e = e' := by
  obtain ⟨before, c, rest, rfl, hm, -, hlex, hoff⟩ := h.divided
  obtain ⟨before', c', rest', hs, hm', -, hlex', hoff'⟩ := h'.divided
  obtain ⟨rfl, hrest⟩ := Text.append_inj_of_byteLength hs (hm.trans hm'.symm)
  have hkept := congrArg Lexing.tokens (hlex.symm.trans hlex')
  rw [← hrest] at hoff'
  exact ⟨List.append_cancel_right hkept, hoff.unique hoff'⟩

/-- A source that cannot be lexed fails at the first place where it breaks off: with the error of
the offence there, and with the tokens of the text before it. A source that breaks off anywhere
cannot be lexed. -/
theorem lex_fails_iff_first_offence (source : String)
    (hlen : byteLength source.toList ≤ Span.maxLength) :
    (∀ kept f, lex source = ⟨kept, some f⟩ ↔
      ∃ m e, f = .error e ∧ FailsAt source.toList m kept e ∧
        ∀ m' kept' e', FailsAt source.toList m' kept' e' → m ≤ m') ∧
    ((∃ m kept e, FailsAt source.toList m kept e) → ∃ kept f, lex source = ⟨kept, some f⟩) := by
  have hfails : ∀ {kept f}, lex source = ⟨kept, some f⟩ → ∃ m e, f = .error e ∧
      FailsAt source.toList m kept e ∧
      ∀ m' kept' e', FailsAt source.toList m' kept' e' → m ≤ m' := by
    intro kept f h
    obtain ⟨ps, m, e, hbreaks, hkept, hf, hleast⟩ := breaks_of_lexFrom (by simpa using hlen) h
    refine ⟨m, e, hf, (failsAt_iff hlen).2 ⟨ps, hkept, hbreaks⟩, fun m' kept' e' h' => ?_⟩
    obtain ⟨ps', -, h'⟩ := (failsAt_iff hlen).1 h'
    exact hleast ps' m' e' h'
  have hexists : (∃ m kept e, FailsAt source.toList m kept e) →
      ∃ kept f, lex source = ⟨kept, some f⟩ := by
    rintro ⟨m, kept, e, h⟩
    obtain ⟨ps, -, hbreaks⟩ := (failsAt_iff hlen).1 h
    generalize hlex : lex source = l
    obtain ⟨tokens, f⟩ := l
    cases f with
    | some f => exact ⟨tokens, f, rfl⟩
    | none =>
      obtain ⟨qs, hcut, -⟩ := exists_cut_of_lex hlex
      exact absurd hcut (hbreaks.not_cut qs)
  refine ⟨fun kept f => ⟨hfails, ?_⟩, hexists⟩
  rintro ⟨m, e, rfl, hat, hleast⟩
  obtain ⟨kept', f', hlex⟩ := hexists ⟨m, kept, e, hat⟩
  obtain ⟨m', e', rfl, hat', hleast'⟩ := hfails hlex
  obtain rfl : m = m' := Nat.le_antisymm (hleast _ _ _ hat') (hleast' _ _ _ hat)
  obtain ⟨rfl, rfl⟩ := hat.unique hat'
  exact hlex

theorem lex_fails_at_second_point :
    byteLength "n+2.5.1".toList ≤ Span.maxLength ∧
      ∃ m, FailsAt "n+2.5.1".toList m [⟨.identifier, ⟨0, 1⟩⟩, ⟨.mark .plus, ⟨1, 1⟩⟩]
          ⟨⟨5, 1⟩, .multipleDecimalPoints⟩ ∧
        ∀ m' kept' e', FailsAt "n+2.5.1".toList m' kept' e' → m ≤ m' := by
  have hlen : byteLength "n+2.5.1".toList ≤ Span.maxLength := by decide
  have hlex : lex "n+2.5.1" = ⟨[⟨.identifier, ⟨0, 1⟩⟩, ⟨.mark .plus, ⟨1, 1⟩⟩],
      some (.error ⟨⟨5, 1⟩, .multipleDecimalPoints⟩)⟩ := by decide +kernel
  obtain ⟨m, e, he, hat, hleast⟩ := ((lex_fails_iff_first_offence _ hlen).1 _ _).1 hlex
  cases he
  exact ⟨hlen, m, hat, hleast⟩

end LetLang.Lexer
