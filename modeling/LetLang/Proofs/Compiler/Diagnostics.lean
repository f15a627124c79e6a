import LetLang.Proofs.Compiler.Stages
import LetLang.Proofs.Text.Underline

/-!
Errors of the compiler point into the source. Their spans are parts of it, an error of typing is
about something inside of the first statement that has no type, and each can be shown unless too
much stands before it on its line.
-/

namespace LetLang

open Text (LineBefore byteLength)

/-- The first statement of a program that has no type is where the error is: those before it have
types, and leave the scope in which it fails. -/
def Typing.FailsInside (catalog : Catalog) (program : Block .parsed) (t : Located TypeError) :
    Prop :=
  ∃ before s after typed scope, program = before ++ s :: after ∧
    block catalog .root before = (.ok typed, scope) ∧
    (stmt catalog scope s).1 = .error t ∧ t.span.Inside s.span

/-- What an error says about the source that it is reported for. -/
structure PointsInto (catalog : Catalog) (source : String) (e : CompileError) : Prop where
  ordered : e.span.lo ≤ e.span.hi
  inside : e.span.hi ≤ byteLength source.toList
  part : e.span.PartOf source.toList
  typing : ∀ t, e = .typing t →
    ∃ program, Compiler.tree source = .ok program ∧ Typing.FailsInside catalog program t
  shown : ∃ line, LineBefore source.toList e.span.lo line ∧
    (e.render? source = none ↔ Text.maxWidth < line.length)

namespace Compiler

variable {catalog : Catalog} {source : String}

theorem failsInside_of_block {program : Block .parsed} {t : Located TypeError}
    (hlen : byteLength source.toList ≤ Span.maxLength) (htree : tree source = .ok program)
    (h : (Typing.block catalog .root program).1 = .error t) :
    t.span.PartOf source.toList ∧ Typing.FailsInside catalog program t := by
  obtain ⟨ps, hcut, hblock, -⟩ := blockAt_of_tree hlen htree
  obtain ⟨before, s, after, typed, scope, rfl, hbefore, hs⟩ := Typing.exists_stmt_of_block h
  obtain ⟨n, hn, hspan⟩ := Typing.blames_of_stmt hs
  have ho := Lexer.inOrder_of_cut hcut
  have hmem : Node.stmt s ∈ (before ++ s :: after).map .stmt := List.mem_map_of_mem (by simp)
  have hinside := hblock.inside_of_within ho hmem hn
  obtain ⟨us, vs, ws, hps, hat, -⟩ := hblock.exists_at (hn.of_mem hmem)
  have hvs : ∀ u ∈ vs, u.span.PartOf source.toList := fun u hu =>
    Span.PartOf.of_cut hcut u (by simp [hps, hu])
  rw [← hspan]
  exact ⟨.of_extent (hat.extent (InOrder.mid (hps ▸ ho))) hvs,
    before, s, after, typed, scope, rfl, hbefore, hs, hspan ▸ hinside⟩

theorem placed_of_typedTree {e : CompileError} (hlen : byteLength source.toList ≤ Span.maxLength)
    (h : typedTree catalog source = .error (.error e)) :
    e.span.PartOf source.toList ∧ ∀ t, e = .typing t →
      ∃ program, tree source = .ok program ∧ Typing.FailsInside catalog program t := by
  rcases error_of_typedTree hlen h with h | ⟨program, t, htree, ht, hf⟩
  · obtain ⟨e', he, hpart, hother⟩ := error_of_tree hlen h
    cases he
    exact ⟨hpart, fun t ht => absurd ht (hother t)⟩
  · cases hf
    obtain ⟨hpart, hfails⟩ := failsInside_of_block hlen htree ht
    refine ⟨hpart, fun t' ht' => ?_⟩
    cases ht'
    exact ⟨program, htree, hfails⟩

/-- Whatever error a source that is not too long is compiled to points into the source. -/
theorem pointsInto_of_compile (catalog : Catalog) (options : Java.Options) (source : String)
    (e : CompileError) (hlen : byteLength source.toList ≤ Span.maxLength)
    (h : compile catalog options source = .error (.error e)) : PointsInto catalog source e := by
  rcases compile_eq_error_iff.1 h with h | ⟨hf, -⟩
  · obtain ⟨hpart, htyping⟩ := placed_of_typedTree hlen h
    have hinside := hpart.hi.le
    have hfits : e.span.Fits := Span.fits_of_hi_le (Nat.le_trans hinside hlen)
    exact ⟨e.span.lo_le_hi, hinside, hpart, htyping,
      Diagnostic.render?_eq_none_iff hfits hpart.lo hpart.hi⟩
  · cases hf

theorem pointsInto_of_invalid_character :
    byteLength "IF TRUE THEN\n  print(\"é\");\nEND".toList ≤ Span.maxLength ∧
    ∃ e, compile .standard ⟨"Main", 4⟩ "IF TRUE THEN\n  print(\"é\");\nEND" = .error (.error e) ∧
      e = .typing ⟨⟨21, 4⟩, .literal (.invalidCharacter 'é')⟩ ∧
      PointsInto .standard "IF TRUE THEN\n  print(\"é\");\nEND" e := by
  have hlen : byteLength "IF TRUE THEN\n  print(\"é\");\nEND".toList ≤ Span.maxLength := by decide
  have herror : (match compile .standard ⟨"Main", 4⟩ "IF TRUE THEN\n  print(\"é\");\nEND" with
    | .error f => decide (f = .error (.typing ⟨⟨21, 4⟩, .literal (.invalidCharacter 'é')⟩))
    | .ok _ => false) = true := by decide +kernel
  split at herror
  · next f hf =>
    cases of_decide_eq_true herror
    exact ⟨hlen, _, hf, rfl, pointsInto_of_compile _ _ _ _ hlen hf⟩
  · cases herror

end Compiler

end LetLang
