import LetLang.Proofs.Catalog.History
import LetLang.Proofs.Compiler.Stages
import LetLang.Proofs.Java.Levels
import LetLang.Proofs.Typing.Checking

/-!
What compilation can stop at. The stages up to the typed tree always end with a result or an error,
whatever the catalog has been made of, and what they give is written out unless its deepest line
would have to be padded too far.
-/

namespace LetLang

open Text (byteLength)

namespace Compiler

variable {catalog : Catalog} {options : Java.Options} {source : String}

theorem tokens_ne_abort (hlen : byteLength source.toList ≤ Span.maxLength) :
    tokens source ≠ .error .abort := by
  intro h
  obtain ⟨e, he, -⟩ := error_of_tokens hlen h
  cases he

theorem tree_ne_abort (hlen : byteLength source.toList ≤ Span.maxLength) :
    tree source ≠ .error .abort := by
  intro h
  obtain ⟨e, he, -⟩ := error_of_tree hlen h
  cases he

theorem typedTree_ne_abort (hlen : byteLength source.toList ≤ Span.maxLength) :
    typedTree catalog source ≠ .error .abort := by
  intro h
  rcases error_of_typedTree hlen h with h | ⟨_, _, -, -, hf⟩
  · exact tree_ne_abort hlen h
  · cases hf

/-- A typed tree is nested as deep as the tree it comes from, and is not empty. -/
theorem depthAll_of_typedTree {program' : Block .typed}
    (hlen : byteLength source.toList ≤ Span.maxLength)
    (h : typedTree catalog source = .ok program') :
    ∃ program, tree source = .ok program ∧ program' ≠ [] ∧
      Stmt.depthAll program' = Stmt.depthAll program := by
  obtain ⟨program, htree, hprogram⟩ := typedTree_eq_ok h
  obtain ⟨-, -, -, hne⟩ := blockAt_of_tree hlen htree
  have hdepth := Typing.depthAll_of_block (Typing.block_of_program hprogram)
  refine ⟨program, htree, ?_, hdepth⟩
  rintro rfl
  exact absurd hdepth (Nat.ne_of_lt (Stmt.depthAll_pos hne))

/-- Compilation of a source that is not too long, with any catalog that can be made: no stage before
the last one aborts, every type can be written, and the last stage aborts if and only if the program
is nested too deep for the indentation. -/
theorem compile_aborts_iff (catalog : Catalog) (table : Table Ty String) (options : Java.Options)
    (source : String) (hlen : byteLength source.toList ≤ Span.maxLength)
    (hbuilt : Catalog.Built catalog table) :
    tokens source ≠ .error .abort ∧ tree source ≠ .error .abort ∧
      typedTree catalog source ≠ .error .abort ∧
      (∀ t, table.get? t = some (catalog.hostType t)) ∧
      (∀ program, tree source = .ok program → 1 ≤ Stmt.depthAll program) ∧
      (compile catalog options source = .error .abort ↔
        ∃ program program', tree source = .ok program ∧
          typedTree catalog source = .ok program' ∧
          Text.maxWidth < options.indent * (1 + Stmt.depthAll program)) := by
  refine ⟨tokens_ne_abort hlen, tree_ne_abort hlen, typedTree_ne_abort hlen, hbuilt.get?_eq,
    fun program h => ?_, ?_⟩
  · obtain ⟨-, -, -, hne⟩ := blockAt_of_tree hlen h
    exact Stmt.depthAll_pos hne
  rw [compile_eq_error_iff, or_iff_right (typedTree_ne_abort hlen)]
  constructor
  · rintro ⟨-, program', htyped, hg⟩
    obtain ⟨program, htree, hne, hdepth⟩ := depthAll_of_typedTree hlen htyped
    exact ⟨program, program', htree, htyped, hdepth ▸ (Java.generate?_eq_none_iff hne).1 hg⟩
  · rintro ⟨program, program', htree, htyped, hwidth⟩
    obtain ⟨program₂, htree₂, hne, hdepth⟩ := depthAll_of_typedTree hlen htyped
    cases htree.symm.trans htree₂
    exact ⟨rfl, program', htyped, (Java.generate?_eq_none_iff hne).2 (hdepth ▸ hwidth)⟩

/-- With two levels of statements the widest indentation is a third of what can be padded. -/
theorem compile_aborts_of_nested_loop :
    byteLength "WHILE TRUE DO print(1); END".toList ≤ Span.maxLength ∧
    Catalog.Built .standard Catalog.defaults ∧
    compile .standard ⟨"Main", 21845⟩ "WHILE TRUE DO print(1); END" ≠ .error .abort ∧
    compile .standard ⟨"Main", 21846⟩ "WHILE TRUE DO print(1); END" = .error .abort := by
  have hlen : byteLength "WHILE TRUE DO print(1); END".toList ≤ Span.maxLength := by decide
  have hstages : (match tree "WHILE TRUE DO print(1); END",
      typedTree .standard "WHILE TRUE DO print(1); END" with
    | .ok program, .ok _ => decide (Stmt.depthAll program = 2)
    | _, _ => false) = true := by decide +kernel
  split at hstages
  · next program program' htree htyped =>
    have hdepth := of_decide_eq_true hstages
    refine ⟨hlen, Catalog.built_standard, fun h => ?_, ?_⟩
    · obtain ⟨p, -, hp, -, hwidth⟩ :=
        (compile_aborts_iff _ _ _ _ hlen Catalog.built_standard).2.2.2.2.2.1 h
      cases htree.symm.trans hp
      rw [hdepth] at hwidth
      exact absurd hwidth (by decide)
    · refine (compile_aborts_iff _ _ _ _ hlen Catalog.built_standard).2.2.2.2.2.2 ?_
      exact ⟨program, program', htree, htyped, by rw [hdepth]; decide⟩
  · cases hstages

end Compiler

end LetLang
