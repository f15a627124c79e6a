import LetLang.Proofs.Compiler.Results
import LetLang.Proofs.Token.Failures
import LetLang.Proofs.Tree.Nodes
import LetLang.Proofs.Tree.Rejection
import LetLang.Proofs.Typing.Blame

/-!
How the stages of the compiler end. In a source that is not too long each stage has a result or an
error about a part of the source, whose ends stand between characters.
-/

namespace LetLang

open Text (IsBoundary Piece byteLength)
open Lexer (lexicon lexemeOf tokenOf eofAt)

/-- From one boundary of a text to another. -/
structure Span.PartOf (cs : List Char) (s : Span) : Prop where
  lo : IsBoundary cs s.lo
  hi : IsBoundary cs s.hi

namespace Span.PartOf

variable {cs : List Char}

theorem of_append {before text after : List Char} (h : cs = before ++ (text ++ after)) :
    PartOf cs ⟨byteLength before, byteLength text⟩ :=
  ⟨⟨before, text ++ after, h, rfl⟩, before ++ text, after, by simp [h], by simp [Span.hi]⟩

theorem whole (cs : List Char) : PartOf cs ⟨0, byteLength cs⟩ :=
  @of_append cs [] cs [] (by simp)

theorem finish (cs : List Char) : PartOf cs ⟨byteLength cs, 0⟩ :=
  @of_append cs cs [] [] (by simp)

theorem of_cut {ps : List (Piece TokenKind)} (hcut : lexicon.Cut 0 cs ps) :
    ∀ t ∈ ps.map lexemeOf, PartOf cs t.span := by
  intro t ht
  obtain ⟨p, hp, rfl⟩ := List.mem_map.1 ht
  obtain ⟨before, after, hs, ho⟩ := hcut.placed p hp
  rw [Nat.zero_add] at ho
  have := of_append hs
  rwa [← ho] at this

theorem place {rest : List Lexeme} (h : ∀ t ∈ rest, PartOf cs t.span) :
    PartOf cs (Parser.place ⟨byteLength cs, 0⟩ rest) := by
  cases rest with
  | nil => exact finish cs
  | cons t rest => exact h t (List.mem_cons_self ..)

/-- What is covered by lexemes of a text is a part of it. -/
theorem of_extent {us : List Lexeme} {s : Span} (h : Extent us s)
    (hus : ∀ t ∈ us, PartOf cs t.span) : PartOf cs s := by
  obtain ⟨t, ht, hlo⟩ := h.mem_first
  obtain ⟨u, hu, hhi⟩ := h.mem_last
  exact ⟨hlo ▸ (hus t ht).lo, hhi ▸ (hus u hu).hi⟩

end Span.PartOf

/-- Nodes within a node of a block are inside of it. -/
theorem BlockAt.inside_of_within {us : List Lexeme} {ss : Block .parsed} {n root : Node}
    (h : BlockAt us ss) (ho : InOrder us) (hroot : root ∈ ss.map .stmt) (hn : n.Within [root]) :
    n.span.Inside root.span := by
  induction hn with
  | root hn =>
    obtain rfl := List.mem_singleton.1 hn
    exact ⟨Nat.le_refl _, Nat.le_refl _⟩
  | @part n m hn hm ih =>
    obtain ⟨before, mid, after, rfl, hat, -⟩ := h.exists_at (hn.of_mem hroot)
    have := (hat.divides ho.mid).inside m.span (List.mem_map_of_mem hm)
    exact this.trans ih

namespace Compiler

variable {catalog : Catalog} {source : String} {f : Failure CompileError}

theorem error_of_tokens (hlen : byteLength source.toList ≤ Span.maxLength)
    (h : tokens source = .error f) :
    ∃ e, f = .error (.lex e) ∧ e.span.PartOf source.toList := by
  unfold tokens at h
  dsimp only at h
  split at h
  · next g hg =>
    cases h
    obtain ⟨before, covered, after, e, hsource, rfl⟩ :=
      Lexer.failure_of_lexFrom (by rwa [Nat.zero_add]) hg
    rw [Nat.zero_add]
    exact ⟨_, rfl, .of_append hsource⟩
  · cases h

theorem error_of_tree (hlen : byteLength source.toList ≤ Span.maxLength)
    (h : tree source = .error f) :
    ∃ e, f = .error e ∧ e.span.PartOf source.toList ∧ ∀ t, e ≠ .typing t := by
  rcases tree_eq_error h with h | ⟨ts, g, hlex, hg, rfl⟩
  · obtain ⟨e, rfl, hpart⟩ := error_of_tokens hlen h
    exact ⟨_, rfl, hpart, fun _ => nofun⟩
  obtain ⟨ps, hcut, rfl, -⟩ := Lexer.exists_cut_of_lex hlex
  rcases parse_cases hlen hcut with ⟨-, hparse⟩ | ⟨-, _, hparse, -⟩ |
    ⟨used, rest, e, hps, hparse, -⟩
  · cases hparse.symm.trans hg
    exact ⟨_, rfl, .whole _, fun _ => nofun⟩
  · cases hparse.symm.trans hg
  · cases hparse.symm.trans hg
    have hrest : ∀ t ∈ rest, t.span.PartOf source.toList := fun t ht =>
      Span.PartOf.of_cut hcut t (hps ▸ List.mem_append_right _ ht)
    exact ⟨_, rfl, .place hrest, fun _ => nofun⟩

/-- The tree of a source is derived from its lexemes, and is not empty. -/
theorem blockAt_of_tree {program : Block .parsed}
    (hlen : byteLength source.toList ≤ Span.maxLength) (h : tree source = .ok program) :
    ∃ ps, lexicon.Cut 0 source.toList ps ∧ BlockAt (ps.map lexemeOf) program ∧ program ≠ [] := by
  obtain ⟨ts, hlex, hparse⟩ := tree_eq_ok h
  refine (parseProgram_eq_ok_iff hlen).1 ?_
  rw [parseProgram, hlex]
  exact hparse

/-- Typing only adds errors of its own, which belong to a statement. -/
theorem error_of_typedTree (hlen : byteLength source.toList ≤ Span.maxLength)
    (h : typedTree catalog source = .error f) :
    tree source = .error f ∨ ∃ program t, tree source = .ok program ∧
      (Typing.block catalog .root program).1 = .error t ∧ f = .error (.typing t) := by
  refine (typedTree_eq_error h).imp_right ?_
  rintro ⟨program, t, hprogram, ht, rfl⟩
  obtain ⟨-, -, -, hne⟩ := blockAt_of_tree hlen hprogram
  rw [Typing.program, if_neg (by simpa using hne)] at ht
  exact ⟨program, t, hprogram, ht, rfl⟩

end Compiler

end LetLang
