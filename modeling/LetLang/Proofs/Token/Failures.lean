import LetLang.Proofs.Token.Tiling

/-!
Texts that are not lexed. A scanner that fails does so on characters of the text, so in a source
that is not too long the lexer always ends with tokens or with an error about a part of the source.
-/

namespace LetLang.Lexer

open Text (byteLength byteLength_append byteLength_cons)

/-- A text in which a fraction starts opens with a point. -/
theorem exists_of_startsFraction {cs : List Char} (h : startsFraction cs) :
    ∃ rest, cs = '.' :: rest := by
  unfold startsFraction at h
  split at h
  · exact ⟨_, rfl⟩
  · cases h

theorem scanNumber_eq_failure {cs before covered : List Char} {e : LexError}
    (h : scanNumber cs = .failure before covered e) :
    ∃ after, cs = before ++ (covered ++ after) := by
  unfold scanNumber at h
  dsimp only at h
  split at h
  · next hpoint =>
    split at h
    · next hpoint' =>
      cases h
      obtain ⟨rest, hrest⟩ := exists_of_startsFraction hpoint
      rw [hrest, List.tail_cons] at hpoint' ⊢
      obtain ⟨after, hafter⟩ := exists_of_startsFraction hpoint'
      refine ⟨after, ?_⟩
      have hwhole := List.takeWhile_append_dropWhile (p := Char.isDigit) (l := cs)
      have hfraction := List.takeWhile_append_dropWhile (p := Char.isDigit) (l := rest)
      rw [hafter] at hfraction
      rw [hrest, ← hfraction] at hwhole
      simpa using hwhole.symm
    · cases h
  · cases h

theorem scan_eq_failure {c : Char} {cs before covered : List Char} {e : LexError}
    (h : scan c cs = .failure before covered e) :
    ∃ after, c :: cs = before ++ (covered ++ after) := by
  unfold scan at h
  split at h
  · next hc =>
    unfold scanString at h
    split at h
    · cases h
      exact ⟨[], by simp [hc]⟩
    · cases h
  split at h
  · exact scanNumber_eq_failure h
  split at h
  · cases h
  · unfold scanMark at h
    split at h
    · cases h
    · cases h
    · split at h <;> cases h
      exact ⟨cs, rfl⟩

/-- A part of a text that is not too long has a span. -/
theorem ofBounds?_of_le {lo n : Nat} (h : lo + n ≤ Span.maxLength) :
    Span.ofBounds? lo (lo + n) = some ⟨lo, n⟩ := by
  have hfits : (⟨lo, n⟩ : Span).Fits := Span.fits_of_hi_le h
  rw [Span.ofBounds?_add, if_pos hfits]

theorem failure_of_lexFrom {offset : Nat} {cs : List Char} {f : Failure (Located LexError)}
    (hlen : offset + byteLength cs ≤ Span.maxLength) (h : (lexFrom offset cs).failure? = some f) :
    ∃ before covered after e, cs = before ++ (covered ++ after) ∧
      f = .error ⟨⟨offset + byteLength before, byteLength covered⟩, e⟩ := by
  fun_induction lexFrom offset cs with
  | case1 => cases h
  | case2 offset hspan =>
    have := ofBounds?_of_le (n := 0) hlen
    rw [Nat.add_zero, hspan] at this
    cases this
  | case3 offset c cs hc ih =>
    rw [byteLength_cons, ← Nat.add_assoc] at hlen
    obtain ⟨before, covered, after, e, rfl, rfl⟩ := ih hlen h
    exact ⟨c :: before, covered, after, e, rfl, by rw [byteLength_cons, ← Nat.add_assoc]⟩
  | case4 offset c cs hb kind text rest hscan hlt after span hspan =>
    rename_i ih
    obtain ⟨hcs, -⟩ := scan_eq_token hscan
    rw [hcs, byteLength_append, ← Nat.add_assoc] at hlen
    obtain ⟨before, covered, after, e, rfl, rfl⟩ := ih hlen h
    refine ⟨text ++ before, covered, after, e, by rw [hcs, List.append_assoc], ?_⟩
    rw [byteLength_append, ← Nat.add_assoc]
  | case5 offset c cs hb kind text rest hscan hlt after =>
    rename_i hspan
    obtain ⟨hcs, -⟩ := scan_eq_token hscan
    rw [hcs, byteLength_append] at hlen
    have := @ofBounds?_of_le offset (byteLength text) (by omega)
    cases hspan.symm.trans this
  | case6 offset c cs hb before covered error hscan lo span hspan =>
    obtain ⟨after, hcs⟩ := scan_eq_failure hscan
    rw [hcs, byteLength_append, byteLength_append] at hlen
    have := @ofBounds?_of_le (offset + byteLength before) (byteLength covered) (by omega)
    cases hspan.symm.trans this
    cases h
    exact ⟨before, covered, after, error, hcs, rfl⟩
  | case7 offset c cs hb before covered error hscan lo hspan =>
    obtain ⟨after, hcs⟩ := scan_eq_failure hscan
    rw [hcs, byteLength_append, byteLength_append] at hlen
    have := @ofBounds?_of_le (offset + byteLength before) (byteLength covered) (by omega)
    cases hspan.symm.trans this

end LetLang.Lexer
