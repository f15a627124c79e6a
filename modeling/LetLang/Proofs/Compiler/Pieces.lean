import LetLang.Proofs.Tree.Parsing
import LetLang.Proofs.Typing.Alike
import LetLang.Proofs.Typing.Blocks

/-!
A source is read and typed piece by piece. A blank shuts off the text before it, so two programs
with blanks between them have the lexemes of both, the second ones further from the start; and the
statements of the second are typed in the scope that the first one leaves.
-/

namespace LetLang

open Text (Piece byteLength)
open Lexer (lexicon lexemeOf tokenOf eofAt)

/-! Moving away from the start. -/

namespace Span

/-- The same length, `n` bytes further from the start. -/
def forth (n : Nat) (s : Span) : Span := ⟨s.lo + n, s.len⟩

/-- Moved by `n` bytes, to an end that is an offset. -/
def Moved (n : Nat) (s s' : Span) : Prop := s' = s.forth n ∧ s'.hi ≤ maxOffset

theorem hi_forth (n : Nat) (s : Span) : (s.forth n).hi = s.hi + n := Nat.add_right_comm ..

theorem joins_moved (n : Nat) : Joins (Moved n) := by
  intro a a' b b' s ha hb hs
  obtain ⟨rfl, ha⟩ := ha
  obtain ⟨rfl, hb⟩ := hb
  obtain ⟨hlo, hhi, hlen, -⟩ := ofBounds?_eq_some_iff.1 hs
  rw [hi_forth] at ha hb
  have hmax : (s.forth n).hi ≤ maxOffset := by
    rw [hi_forth, hhi]
    omega
  refine ⟨s.forth n, ofBounds?_eq_some_iff.2 ⟨?_, ?_, hlen, hmax⟩, rfl, hmax⟩
  · simp only [forth, hlo]
    omega
  · rw [hi_forth, hi_forth, hi_forth, hhi]
    omega

end Span

namespace Lexer

variable {source : List Char} {ps : List (Piece TokenKind)} {n : Nat}

theorem lexemes_forth (hcut : lexicon.Cut 0 source ps)
    (hroom : byteLength source + n ≤ Span.maxOffset) :
    Lexeme.LikeAll (Span.Moved n) (ps.map lexemeOf) ((ps.map (·.forth n)).map lexemeOf) := by
  rw [List.map_map, Lexeme.LikeAll, List.forall₂_map_left_iff, List.forall₂_map_right_iff,
    List.forall₂_same]
  intro p hp
  obtain ⟨before, after, rfl, ho⟩ := hcut.placed p hp
  refine ⟨rfl, rfl, ?_⟩
  simp only [Text.byteLength_append] at hroom
  simp only [Function.comp_apply, lexemeOf, tokenOf, Piece.forth, Span.hi, ho]
  omega

/-- The tokens of a cut fit where they are moved, if the text still ends at an offset. -/
theorem fits_forth (hcut : lexicon.Cut 0 source ps)
    (hfits : ∀ t ∈ ps.map tokenOf ++ [eofAt (byteLength source)], t.span.Fits)
    (hroom : byteLength source + n ≤ Span.maxOffset) :
    ∀ t ∈ (ps.map (·.forth n)).map tokenOf ++ [eofAt (byteLength source + n)], t.span.Fits := by
  intro t ht
  rw [List.map_map, List.mem_append, List.mem_singleton] at ht
  rcases ht with ht | rfl
  · obtain ⟨p, hp, rfl⟩ := List.mem_map.1 ht
    -- as long as it was, and within the text
    have hlen := (hfits (tokenOf p) (List.mem_append_left _ (List.mem_map_of_mem hp))).1
    obtain ⟨before, after, rfl, ho⟩ := hcut.placed p hp
    refine ⟨hlen, ?_⟩
    simp only [Text.byteLength_append] at hroom
    simp only [Function.comp_apply, tokenOf, Piece.forth, Span.hi, ho]
    omega
  · exact ⟨Nat.zero_le _, hroom⟩

end Lexer

theorem BlockAt.append {us vs : List Lexeme} {ss ss' : Block .parsed} (h : BlockAt us ss)
    (h' : BlockAt vs ss') : BlockAt (us ++ vs) (ss ++ ss') := by
  induction ss generalizing us with
  | nil =>
    obtain rfl := h.nil_iff.2 rfl
    exact h'
  | cons s ss ih =>
    cases h with
    | cons hs hss =>
      rw [List.append_assoc]
      exact .cons hs (ih hss)

section Reading

variable {s₁ w s₂ : String} {p₁ p₂ : Block .parsed}

/-- The second program is read as it is on its own, further from the start. -/
theorem parseProgram_append (h₁ : parseProgram s₁ = .ok p₁) (h₂ : parseProgram s₂ = .ok p₂)
    (hw : w ≠ "") (hblank : ∀ c ∈ w.toList, Lexer.isBlank c)
    (hroom : byteLength (s₁ ++ w ++ s₂).toList ≤ Span.maxOffset) :
    ∃ p₂', Stmt.LikeAll (.places (Span.Moved (byteLength (s₁ ++ w).toList))) p₂ p₂' ∧
      parseProgram (s₁ ++ w ++ s₂) = .ok (p₁ ++ p₂') := by
  obtain ⟨ps, hcut, hfits, hp₁, hne⟩ := parseProgram_eq_ok_iff_of_fits.1 h₁
  obtain ⟨qs, hcut', hfits', hp₂, -⟩ := parseProgram_eq_ok_iff_of_fits.1 h₂
  have hlength : byteLength (s₁ ++ w ++ s₂).toList =
      byteLength s₂.toList + byteLength (s₁ ++ w).toList := by
    rw [String.toList_append, Text.byteLength_append, Nat.add_comm]
  have hlexemes := Lexer.lexemes_forth hcut' (hlength ▸ hroom)
  obtain ⟨p₂', hp₂', hlike⟩ := hp₂.alike (Span.joins_moved _) hlexemes
  refine ⟨p₂', hlike, parseProgram_eq_ok_iff_of_fits.2
    ⟨ps ++ qs.map (·.forth (byteLength (s₁ ++ w).toList)), ?_, ?_, ?_, ?_⟩⟩
  · rw [String.toList_append, String.toList_append]
    apply hcut.append hblank (by simpa using hw) fun c rest => Lexer.shut_of_blank
    rw [← String.toList_append]
    exact hcut'.forth _
  · rw [List.map_append, List.append_assoc, hlength]
    refine List.forall_mem_append.2 ⟨fun t ht => hfits t (List.mem_append_left _ ht), ?_⟩
    exact Lexer.fits_forth hcut' hfits' (hlength ▸ hroom)
  · rw [List.map_append]
    exact hp₁.append hp₂'
  · exact List.append_ne_nil_of_left_ne_nil hne _

end Reading

namespace Typing

variable {catalog : Catalog} {scope : Scope} {p₁ p₂ p₂' : Block .parsed}

/-- Two programs one after the other: the second one is typed in the scope that the first leaves. -/
theorem program_append (h₁ : p₁ ≠ []) (h₂ : p₂ ≠ []) :
    program catalog scope (p₁ ++ p₂) =
      match program catalog scope p₁ with
      | (.error e, mid) => (.error e, mid)
      | (.ok t₁, mid) =>
        ((t₁ ++ ·) <$> (program catalog mid p₂).1, (program catalog mid p₂).2) := by
  rw [program_of_ne_nil (List.append_ne_nil_of_left_ne_nil h₁ _), program_of_ne_nil h₁,
    block_append]
  rcases block catalog scope p₁ with ⟨e | t₁, mid⟩
  · rfl
  · dsimp only
    rw [program_of_ne_nil h₂]

theorem program_moved {n : Nat} (hne : p₂ ≠ [])
    (h : Stmt.LikeAll (.places (Span.Moved n)) p₂ p₂') :
    program catalog scope p₂' =
      match program catalog scope p₂ with
      | (.error e, last) => (.error ⟨e.span.forth n, e.value⟩, last)
      | (.ok t, last) => (.ok (Stmt.mapSpanAll (Span.forth n) t), last) := by
  have halike : TypeResult.LikeIn (Span.Moved n) _ (program catalog scope p₂)
      (program catalog scope p₂') := program_alike hne h
  generalize program catalog scope p₂ = q, program catalog scope p₂' = q' at halike
  cases halike with
  | ok ht =>
    dsimp only
    rw [ht.eq_mapSpan fun _ _ hs => hs.1]
  | error hs =>
    dsimp only
    rw [hs.1]

end Typing

/-- A source that is two programs, the second one `n` bytes from the start: it is read as both, and
typed as the first and then, in the scope which that leaves, the second. -/
structure InPieces (catalog : Catalog) (scope : Scope) (source : String) (n : Nat)
    (p₁ p₂ : Block .parsed) : Prop where
  tree : parseProgram source = .ok (p₁ ++ Stmt.mapSpanAll (Span.forth n) p₂)
  typed : ∀ t₁ mid t₂ last, Typing.program catalog scope p₁ = (.ok t₁, mid) →
    Typing.program catalog mid p₂ = (.ok t₂, last) →
    Typing.program catalog scope (p₁ ++ Stmt.mapSpanAll (Span.forth n) p₂) =
      (.ok (t₁ ++ Stmt.mapSpanAll (Span.forth n) t₂), last)
  firstFails : ∀ e mid, Typing.program catalog scope p₁ = (.error e, mid) →
    Typing.program catalog scope (p₁ ++ Stmt.mapSpanAll (Span.forth n) p₂) = (.error e, mid)
  secondFails : ∀ t₁ mid e last, Typing.program catalog scope p₁ = (.ok t₁, mid) →
    Typing.program catalog mid p₂ = (.error e, last) →
    Typing.program catalog scope (p₁ ++ Stmt.mapSpanAll (Span.forth n) p₂) =
      (.error ⟨e.span.forth n, e.value⟩, last)

/-- Two programs with blanks between them, with any functions and any names bound before. The text
as a whole has to end at an offset, since the spans of the second program are moved; how long it is
does not matter otherwise. -/
theorem inPieces_of_parseProgram (catalog : Catalog) (scope : Scope) (s₁ w s₂ : String)
    (p₁ p₂ : Block .parsed) (h₁ : parseProgram s₁ = .ok p₁) (h₂ : parseProgram s₂ = .ok p₂)
    (hw : w ≠ "") (hblank : ∀ c ∈ w.toList, Lexer.isBlank c)
    (hroom : byteLength (s₁ ++ w ++ s₂).toList ≤ Span.maxOffset) :
    InPieces catalog scope (s₁ ++ w ++ s₂) (byteLength (s₁ ++ w).toList) p₁ p₂ := by
  obtain ⟨-, -, -, -, hne₁⟩ := parseProgram_eq_ok_iff_of_fits.1 h₁
  obtain ⟨-, -, -, -, hne₂⟩ := parseProgram_eq_ok_iff_of_fits.1 h₂
  obtain ⟨p₂', hmoved, htree⟩ := parseProgram_append h₁ h₂ hw hblank hroom
  obtain rfl := hmoved.eq_mapSpan fun _ _ hs => hs.1
  have hne₂' : Stmt.mapSpanAll (Span.forth (byteLength (s₁ ++ w).toList)) p₂ ≠ [] := by
    intro hnil
    rw [hnil] at hmoved
    cases hmoved
    exact hne₂ rfl
  refine ⟨htree, ?_, ?_, ?_⟩
  · intro t₁ mid t₂ last hfirst hsecond
    rw [Typing.program_append hne₁ hne₂', hfirst]
    dsimp only
    rw [Typing.program_moved hne₂ hmoved, hsecond]
    rfl
  · intro e mid hfirst
    rw [Typing.program_append hne₁ hne₂', hfirst]
  · intro t₁ mid e last hfirst hsecond
    rw [Typing.program_append hne₁ hne₂', hfirst]
    dsimp only
    rw [Typing.program_moved hne₂ hmoved, hsecond]
    rfl

theorem inPieces_of_two_lines :
    ∃ p₁ p₂, parseProgram "LET x : INTEGER = 1;" = .ok p₁ ∧
      parseProgram "LET y : STRING; print(x); y = x;" = .ok p₂ ∧ "\n\t" ≠ "" ∧
      (∀ c ∈ "\n\t".toList, Lexer.isBlank c) ∧
      byteLength ("LET x : INTEGER = 1;" ++ "\n\t" ++
        "LET y : STRING; print(x); y = x;").toList ≤ Span.maxOffset ∧
      InPieces .standard .root
        ("LET x : INTEGER = 1;" ++ "\n\t" ++ "LET y : STRING; print(x); y = x;")
        (byteLength ("LET x : INTEGER = 1;" ++ "\n\t").toList) p₁ p₂ := by
  have hread : (match parseProgram "LET x : INTEGER = 1;",
      parseProgram "LET y : STRING; print(x); y = x;" with
    | .ok _, .ok _ => true
    | _, _ => false) = true := by decide +kernel
  split at hread
  · next p₁ p₂ h₁ h₂ =>
    have hroom : byteLength ("LET x : INTEGER = 1;" ++ "\n\t" ++
        "LET y : STRING; print(x); y = x;").toList ≤ Span.maxOffset := by decide
    have hblank : ∀ c ∈ "\n\t".toList, Lexer.isBlank c := List.all_eq_true.1 (by decide)
    exact ⟨p₁, p₂, h₁, h₂, by decide, hblank, hroom,
      inPieces_of_parseProgram _ _ _ _ _ _ _ h₁ h₂ (by decide) hblank hroom⟩
  · cases hread

end LetLang
