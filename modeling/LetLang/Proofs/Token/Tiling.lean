import LetLang.Proofs.Text.Boundary
import LetLang.Proofs.Token.Scan

/-!
A lexing that succeeds is the longest-match tiling of its source, and every such tiling is a lexing.
The tokens of a tiling are described by their places in the whole source; a cut describes them from
left to right. The two agree from any place on that no word crosses.
-/

namespace LetLang

open Text (Piece IsBoundary byteLength byteLength_append byteLength_cons)

theorem Span.ofBounds?_add (lo n : Nat) :
    Span.ofBounds? lo (lo + n) = if (⟨lo, n⟩ : Span).Fits then some ⟨lo, n⟩ else none := by
  rw [ofBounds?, if_pos (Nat.le_add_right ..), Nat.add_sub_cancel_left]
  rfl

theorem Span.ofBounds?_self (lo : Nat) :
    Span.ofBounds? lo lo = if (⟨lo, 0⟩ : Span).Fits then some ⟨lo, 0⟩ else none :=
  ofBounds?_add lo 0

theorem Span.fits_of_hi_le {s : Span} (h : s.hi ≤ maxLength) : s.Fits := by
  simp only [Fits, hi, maxLength, maxOffset] at *
  omega

namespace Lexer

/-- A word at its place is a token. -/
def tokenOf (p : Piece TokenKind) : Token := ⟨p.word.kind, ⟨p.offset, byteLength p.word.text⟩⟩

/-- The token that ends a source of the given length. -/
def eofAt (n : Nat) : Token := ⟨.eof, ⟨n, 0⟩⟩

theorem push_eq_iff {t : Token} {l : Lexing} {tokens : List Token} :
    l.push t = ⟨tokens, none⟩ ↔ ∃ ts, tokens = t :: ts ∧ l = ⟨ts, none⟩ := by
  obtain ⟨ts, f⟩ := l
  refine ⟨?_, ?_⟩
  · intro h
    cases h
    exact ⟨ts, rfl, rfl⟩
  · rintro ⟨ts, rfl, h⟩
    cases h
    rfl

theorem stop_ne {f : Failure (Located LexError)} {tokens : List Token} :
    Lexing.stop f ≠ ⟨tokens, none⟩ := by
  intro h
  cases h

/-- Lexing finds the cut of the text, as tokens, if every token fits. -/
theorem lexFrom_eq_iff {offset : Nat} {cs : List Char} {tokens : List Token} :
    lexFrom offset cs = ⟨tokens, none⟩ ↔
      ∃ ps, lexicon.Cut offset cs ps ∧
        tokens = ps.map tokenOf ++ [eofAt (offset + byteLength cs)] ∧
        ∀ t ∈ tokens, t.span.Fits := by
  fun_induction lexFrom offset cs generalizing tokens with
  | case1 offset span hspan =>
    rw [Span.ofBounds?_self] at hspan
    split at hspan
    · next hfits =>
      cases hspan
      simp only [Text.Lexicon.cut_nil_iff, exists_eq_left, List.map_nil, List.nil_append,
        Lexing.mk.injEq, and_true]
      refine ⟨?_, fun h => h.1.symm⟩
      rintro rfl
      exact ⟨rfl, List.forall_mem_singleton.2 hfits⟩
    · cases hspan
  | case2 offset hspan =>
    rw [Span.ofBounds?_self] at hspan
    split at hspan
    · cases hspan
    · next hfits =>
      refine ⟨fun h => absurd h stop_ne, ?_⟩
      rintro ⟨ps, hcut, rfl, h⟩
      exact absurd (h (eofAt offset) (by simp)) hfits
  | case3 offset c cs hc ih =>
    rw [byteLength_cons, ← Nat.add_assoc]
    simp only [ih, Text.Lexicon.cut_blank_iff (L := lexicon) hc]
  | case4 offset c cs hb kind text rest hscan hlt after span hspan =>
    rename_i ih
    rcases scan_cases cs (by simpa using hb) with ⟨k, t, r, hcs, hlong, hs⟩ | ⟨-, _, _, _, hs⟩
    · cases hscan.symm.trans hs
      rw [Span.ofBounds?_add] at hspan
      split at hspan
      · next hfits =>
        cases hspan
        rw [hcs, byteLength_append, ← Nat.add_assoc]
        simp only [push_eq_iff, ih, Text.Lexicon.cut_longest_iff hlong]
        refine ⟨?_, ?_⟩
        · rintro ⟨ts, rfl, ps, hcut, rfl, h⟩
          exact ⟨_, ⟨ps, rfl, hcut⟩, rfl, List.forall_mem_cons.2 ⟨hfits, h⟩⟩
        · rintro ⟨_, ⟨ps, rfl, hcut⟩, rfl, h⟩
          exact ⟨_, rfl, ps, hcut, rfl, (List.forall_mem_cons.1 h).2⟩
      · cases hspan
    · cases hscan.symm.trans hs
  | case5 offset c cs hb kind text rest hscan hlt after =>
    rename_i hspan
    rcases scan_cases cs (by simpa using hb) with ⟨k, t, r, hcs, hlong, hs⟩ | ⟨-, _, _, _, hs⟩
    · cases hscan.symm.trans hs
      rw [Span.ofBounds?_add] at hspan
      split at hspan
      · cases hspan
      · next hfits =>
        refine ⟨fun h => absurd h stop_ne, ?_⟩
        rw [hcs]
        rintro ⟨ps, hcut, rfl, h⟩
        obtain ⟨qs, rfl, -⟩ := (Text.Lexicon.cut_longest_iff hlong).1 hcut
        exact absurd (h _ (List.mem_cons_self ..)) hfits
    · cases hscan.symm.trans hs
  | case6 offset c cs hb before covered error hscan span hspan =>
    rcases scan_cases cs (by simpa using hb) with ⟨k, t, r, -, -, hs⟩ | ⟨hcut, -⟩
    · cases hscan.symm.trans hs
    · simp [stop_ne, hcut]
  | case7 offset c cs hb before covered error hscan hspan =>
    rcases scan_cases cs (by simpa using hb) with ⟨k, t, r, -, -, hs⟩ | ⟨hcut, -⟩
    · cases hscan.symm.trans hs
    · simp [stop_ne, hcut]

/-- In a source that is not too long, every token fits. -/
theorem fits_of_cut {offset : Nat} {cs : List Char} {ps : List (Piece TokenKind)}
    (hlen : offset + byteLength cs ≤ Span.maxLength) (h : lexicon.Cut offset cs ps) :
    ∀ t ∈ ps.map tokenOf ++ [eofAt (offset + byteLength cs)], t.span.Fits := by
  intro t ht
  apply Span.fits_of_hi_le
  rcases List.mem_append.1 ht with ht | ht
  · obtain ⟨p, hp, rfl⟩ := List.mem_map.1 ht
    obtain ⟨before, after, rfl, ho⟩ := h.placed p hp
    simp only [byteLength_append] at hlen
    simp only [tokenOf, Span.hi, ho]
    omega
  · obtain rfl := List.mem_singleton.1 ht
    exact hlen

/-- Whether the character at an offset belongs to the token. -/
def Covers (t : Token) (n : Nat) : Prop := t.span.lo ≤ n ∧ n < t.span.hi

/-- The tokens stand on words, in order and with only blanks between them, from offset `n` on. -/
structure Tiles (source : List Char) (n : Nat) (words : List Token) : Prop where
  placed : ∀ t ∈ words, n ≤ t.span.lo ∧ ∃ before text after, source = before ++ (text ++ after) ∧
    t.span = ⟨byteLength before, byteLength text⟩ ∧ lexicon.Longest t.kind text after
  ordered : words.Pairwise fun t u => t.span.hi ≤ u.span.lo
  blank : ∀ before c after, source = before ++ c :: after → n ≤ byteLength before →
    (∀ t ∈ words, ¬ Covers t (byteLength before)) → isBlank c = true

theorem longest_pos {k : TokenKind} {text rest : List Char} (h : lexicon.Longest k text rest) :
    0 < byteLength text := by
  obtain ⟨c, cs, rfl, -⟩ := lexicon.starts h.1
  exact Text.byteLength_pos (List.cons_ne_nil _ _)

theorem tiles_nil {source : List Char} : Tiles source (byteLength source) [] where
  placed := by simp
  ordered := .nil
  blank before c after h hn := by
    have := c.utf8Size_pos
    rw [h, byteLength_append, byteLength_cons] at hn
    omega

theorem Tiles.cons_blank {source before cs : List Char} {c : Char} {words : List Token}
    (hs : source = before ++ c :: cs) (hc : isBlank c = true)
    (h : Tiles source (byteLength (before ++ [c])) words) :
    Tiles source (byteLength before) words where
  placed t ht := by
    obtain ⟨hle, hp⟩ := h.placed t ht
    rw [byteLength_append] at hle
    exact ⟨by omega, hp⟩
  ordered := h.ordered
  blank before' c' after' hs' hle hcov := by
    obtain ⟨gap, rfl, hgap⟩ := Text.exists_gap (hs.symm.trans hs') hle
    cases gap with
    | nil => cases hgap; exact hc
    | cons d gap =>
      cases hgap
      refine h.blank _ _ _ hs' ?_ hcov
      simp only [byteLength_append, byteLength_cons, Text.byteLength_nil]
      omega

theorem Tiles.cons_word {source before text rest : List Char} {k : TokenKind} {words : List Token}
    (hs : source = before ++ (text ++ rest)) (hl : lexicon.Longest k text rest)
    (h : Tiles source (byteLength (before ++ text)) words) :
    Tiles source (byteLength before) (⟨k, ⟨byteLength before, byteLength text⟩⟩ :: words) where
  placed t ht := by
    rcases List.mem_cons.1 ht with rfl | ht
    · exact ⟨Nat.le_refl _, before, text, rest, hs, rfl, hl⟩
    · obtain ⟨hle, hp⟩ := h.placed t ht
      rw [byteLength_append] at hle
      exact ⟨by omega, hp⟩
  ordered := by
    refine List.pairwise_cons.2 ⟨fun t ht => ?_, h.ordered⟩
    have := (h.placed t ht).1
    rwa [byteLength_append] at this
  blank before' c after hs' hle hcov := by
    refine h.blank before' c after hs' ?_ fun t ht => hcov t (List.mem_cons_of_mem _ ht)
    have := hcov _ (List.mem_cons_self ..)
    simp only [Covers, Span.hi, byteLength_append] at this ⊢
    omega

/-- The first word of a tiling, with the blanks before it. -/
theorem Tiles.uncons {source before rest : List Char} {t : Token} {words : List Token}
    (hs : source = before ++ rest) (h : Tiles source (byteLength before) (t :: words)) :
    ∃ gap text after, rest = gap ++ (text ++ after) ∧ (∀ c ∈ gap, isBlank c = true) ∧
      t = ⟨t.kind, ⟨byteLength (before ++ gap), byteLength text⟩⟩ ∧
      lexicon.Longest t.kind text after ∧
      Tiles source (byteLength (before ++ gap ++ text)) words := by
  obtain ⟨hle, before', text, after, hs', hspan, hl⟩ := h.placed t (List.mem_cons_self ..)
  obtain ⟨k, span⟩ := t
  subst hspan
  obtain ⟨gap, rfl, rfl⟩ := Text.exists_gap (hs.symm.trans hs') hle
  obtain ⟨hfirst, hordered⟩ := List.pairwise_cons.1 h.ordered
  have hpos := longest_pos hl
  simp only [Span.hi, byteLength_append] at hfirst
  refine ⟨gap, text, after, rfl, fun c hc => ?_, rfl, hl, ?_, hordered, ?_⟩
  · -- what stands before the first word is in none of them
    obtain ⟨gap', gap'', rfl⟩ := List.append_of_mem hc
    refine h.blank (before ++ gap') c (gap'' ++ (text ++ after)) (by simp [hs]) (by simp) ?_
    have hc := c.utf8Size_pos
    simp only [byteLength_append, byteLength_cons] at hfirst
    refine List.forall_mem_cons.2 ⟨fun hcov => ?_, fun u hu hcov => ?_⟩
    · have := hcov.1
      simp only [byteLength_append, byteLength_cons] at this
      omega
    · have := hcov.1
      have := hfirst u hu
      simp only [byteLength_append] at *
      omega
  · intro u hu
    have := hfirst u hu
    refine ⟨?_, (h.placed u (List.mem_cons_of_mem _ hu)).2⟩
    simp only [byteLength_append]
    omega
  · intro before' c after' hs' hle' hcov
    simp only [byteLength_append] at hle'
    refine h.blank before' c after' hs' (by omega) (List.forall_mem_cons.2 ⟨fun hc => ?_, hcov⟩)
    have := hc.2
    simp only [byteLength_append, Span.hi] at this
    omega

theorem tiles_of_cut {source before rest : List Char} {ps : List (Piece TokenKind)}
    (hs : source = before ++ rest) (h : lexicon.Cut (byteLength before) rest ps) :
    Tiles source (byteLength before) (ps.map tokenOf) := by
  generalize hn : byteLength before = n at h
  induction h generalizing before with
  | nil =>
    rw [List.append_nil] at hs
    rw [← hn, ← hs]
    exact tiles_nil
  | @blank o c cs ps hc _ ih =>
    subst hn
    refine Tiles.cons_blank hs hc ?_
    have := @ih (before ++ [c]) (by simp [hs]) (by simp)
    rwa [byteLength_append]
  | @word o k text rest ps hl _ ih =>
    subst hn
    refine Tiles.cons_word hs hl ?_
    have := @ih (before ++ text) (by simp [hs]) (by simp)
    rwa [byteLength_append]

theorem cut_of_tiles {source before rest : List Char} {words : List Token}
    (hs : source = before ++ rest) (h : Tiles source (byteLength before) words) :
    ∃ ps, lexicon.Cut (byteLength before) rest ps ∧ words = ps.map tokenOf := by
  induction words generalizing before rest with
  | nil =>
    refine ⟨[], ?_, rfl⟩
    rw [← List.append_nil rest]
    refine Text.Lexicon.Cut.blanks (fun c hc => ?_) .nil
    obtain ⟨gap, after, rfl⟩ := List.append_of_mem hc
    exact h.blank (before ++ gap) c after (by simp [hs]) (by simp) (by simp)
  | cons t words ih =>
    obtain ⟨gap, text, after, rfl, hgap, ht, hl, htail⟩ := h.uncons hs
    obtain ⟨ps, hcut, rfl⟩ := @ih (before ++ gap ++ text) after (by simp [hs]) htail
    refine ⟨⟨byteLength (before ++ gap), t.kind, text⟩ :: ps, ?_, ?_⟩
    · refine Text.Lexicon.Cut.blanks hgap ?_
      rw [byteLength_append] at hcut
      rw [← byteLength_append]
      exact .word hl hcut
    · rw [List.map_cons, tokenOf, ← ht]

/-- The tokens are the longest-match tiling of the source: all but the last are nonempty words that
no other character could prolong, only blanks stand between them, and the last is `eof` at the end.
-/
structure Tiling (source : List Char) (tokens : List Token) : Prop where
  last : tokens.getLast? = some ⟨.eof, ⟨byteLength source, 0⟩⟩
  proper : ∀ t ∈ tokens.dropLast, t.kind ≠ .eof ∧ t.span.lo < t.span.hi
  inBounds : ∀ t ∈ tokens, t.span.hi ≤ byteLength source
  boundaries : ∀ t ∈ tokens, IsBoundary source t.span.lo ∧ IsBoundary source t.span.hi
  ordered : tokens.Pairwise fun t u => t.span.lo < u.span.lo ∧ t.span.hi ≤ u.span.lo
  blank : ∀ before c after, source = before ++ c :: after →
    (∀ t ∈ tokens, ¬ Covers t (byteLength before)) → isBlank c = true
  word : ∀ t ∈ tokens.dropLast, ∃ text, t.span.slice? source = some text ∧ IsWord t.kind text
  longest : ∀ t ∈ tokens.dropLast, ∀ k before text after, source = before ++ (text ++ after) →
    byteLength before = t.span.lo → IsWord k text → byteLength text ≤ t.span.len

theorem IsWord.ne_eof {k : TokenKind} {text : List Char} (h : IsWord k text) : k ≠ .eof := by
  rintro rfl
  cases h

/-- Two words that start at one place are both starts of the rest of the source. -/
theorem longest_iff (before : List Char) {text after : List Char} {k : TokenKind} :
    lexicon.Longest k text after ↔ IsWord k text ∧
      ∀ k' before' text' after', before ++ (text ++ after) = before' ++ (text' ++ after') →
        byteLength before' = byteLength before → IsWord k' text' →
        byteLength text' ≤ byteLength text := by
  refine and_congr_right fun _ => ⟨fun h k' before' text' after' hs hlo hw => ?_,
    fun h k' more after' hafter hw => ?_⟩
  · obtain ⟨rfl, hrest⟩ := Text.append_inj_of_byteLength hs hlo.symm
    rcases List.append_eq_append_iff.1 hrest with ⟨more, rfl, hafter⟩ | ⟨more, rfl, -⟩
    · simp [h k' more after' hafter hw]
    · simp
  · have := h k' before (text ++ more) after' (by simp [hafter]) rfl hw
    rw [byteLength_append] at this
    exact Text.byteLength_eq_zero (by omega)

theorem tiles_of_tiling {source : List Char} {words : List Token}
    (h : Tiling source (words ++ [eofAt (byteLength source)])) : Tiles source 0 words := by
  obtain ⟨hordered, -, -⟩ := List.pairwise_append.1 h.ordered
  have hword := h.word
  have hlongest := h.longest
  rw [List.dropLast_concat] at hword hlongest
  refine ⟨fun t ht => ⟨Nat.zero_le _, ?_⟩, hordered.imp And.right,
    fun before c after hs _ hcov => h.blank before c after hs ?_⟩
  · obtain ⟨text, htext, hw⟩ := hword t ht
    obtain ⟨before, after, rfl, hlo, hlen⟩ := Text.slice?_eq_some_iff.1 htext
    rw [List.append_assoc] at hlongest ⊢
    refine ⟨before, text, after, rfl, by rw [hlo, hlen], ?_⟩
    refine (longest_iff before).2 ⟨hw, fun k' before' text' after' hs' hlo' hw' => ?_⟩
    rw [hlen]
    exact hlongest t ht k' before' text' after' hs' (hlo'.trans hlo) hw'
  · refine List.forall_mem_append.2 ⟨hcov, List.forall_mem_singleton.2 fun hc => ?_⟩
    have := hc.1
    have := hc.2
    simp only [eofAt, Span.hi] at *
    omega

theorem tiling_of_tiles {source : List Char} {words : List Token} (h : Tiles source 0 words) :
    Tiling source (words ++ [eofAt (byteLength source)]) := by
  have hplaced : ∀ t ∈ words, t.kind ≠ .eof ∧ t.span.lo < t.span.hi ∧
      t.span.hi ≤ byteLength source ∧ IsBoundary source t.span.lo ∧
      IsBoundary source t.span.hi := by
    intro t ht
    obtain ⟨-, before, text, after, hs, hspan, hl⟩ := h.placed t ht
    have hpos := longest_pos hl
    refine ⟨IsWord.ne_eof hl.1, ?_, ?_, ⟨before, text ++ after, hs, by rw [hspan]⟩,
      before ++ text, after, by simp [hs], by simp [hspan, Span.hi]⟩
    · simp [hspan, Span.hi, hpos]
    · simp [hspan, Span.hi, hs]
  refine ⟨by simp [eofAt], ?_, ?_, ?_, ?_, ?_, ?_, ?_⟩
  · rw [List.dropLast_concat]
    exact fun t ht => ⟨(hplaced t ht).1, (hplaced t ht).2.1⟩
  · refine List.forall_mem_append.2 ⟨fun t ht => (hplaced t ht).2.2.1, ?_⟩
    simp [eofAt, Span.hi]
  · refine List.forall_mem_append.2 ⟨fun t ht => (hplaced t ht).2.2.2, ?_⟩
    have : IsBoundary source (byteLength source) := ⟨source, [], by simp, rfl⟩
    simpa [eofAt, Span.hi] using this
  · refine List.pairwise_append.2 ⟨h.ordered.imp_of_mem fun ht _ hle => ⟨?_, hle⟩,
      List.pairwise_singleton _ _, fun t ht => List.forall_mem_singleton.2 ?_⟩
    · exact Nat.lt_of_lt_of_le (hplaced _ ht).2.1 hle
    · have := hplaced t ht
      exact ⟨Nat.lt_of_lt_of_le this.2.1 this.2.2.1, this.2.2.1⟩
  · exact fun before c after hs hcov => h.blank before c after hs (Nat.zero_le _)
      fun t ht => hcov t (List.mem_append_left _ ht)
  · rw [List.dropLast_concat]
    intro t ht
    obtain ⟨-, before, text, after, hs, hspan, hl⟩ := h.placed t ht
    refine ⟨text, Text.slice?_eq_some_iff.2 ⟨before, after, by simp [hs], ?_, ?_⟩, hl.1⟩ <;>
      rw [hspan]
  · rw [List.dropLast_concat]
    intro t ht k' before' text' after' hs' hlo' hw'
    obtain ⟨-, before, text, after, rfl, hspan, hl⟩ := h.placed t ht
    rw [hspan] at hlo' ⊢
    exact ((longest_iff before).1 hl).2 k' before' text' after' hs' hlo' hw'

/-- Every source that is not too long: the tokens of a successful lexing are its one tiling. -/
theorem lex_eq_iff_tiling (source : String) (tokens : List Token)
    (h : byteLength source.toList ≤ Span.maxLength) :
    lex source = ⟨tokens, none⟩ ↔ Tiling source.toList tokens := by
  rw [lex, lexFrom_eq_iff, Nat.zero_add]
  refine ⟨?_, ?_⟩
  · rintro ⟨ps, hcut, rfl, -⟩
    exact tiling_of_tiles (tiles_of_cut (List.nil_append _).symm hcut)
  · intro ht
    obtain ⟨words, rfl⟩ : ∃ words, tokens = words ++ [eofAt (byteLength source.toList)] :=
      List.getLast?_eq_some_iff.1 ht.last
    obtain ⟨ps, hcut, rfl⟩ := cut_of_tiles (List.nil_append _).symm (tiles_of_tiling ht)
    have hfits := fits_of_cut (by rwa [byteLength, Nat.zero_add]) hcut
    rw [byteLength, Nat.zero_add] at hfits
    exact ⟨ps, hcut, rfl, hfits⟩

theorem tiling_of_mixed_source :
    byteLength "a!=\"é\" 1.5;".toList ≤ Span.maxLength ∧
      Tiling "a!=\"é\" 1.5;".toList
        [⟨.identifier, ⟨0, 1⟩⟩, ⟨.mark .notEqual, ⟨1, 2⟩⟩, ⟨.string, ⟨3, 4⟩⟩, ⟨.decimal, ⟨8, 3⟩⟩,
          ⟨.mark .semicolon, ⟨11, 1⟩⟩, ⟨.eof, ⟨12, 0⟩⟩] :=
  ⟨by decide, (lex_eq_iff_tiling _ _ (by decide)).1 (by decide +kernel)⟩

end Lexer

end LetLang
