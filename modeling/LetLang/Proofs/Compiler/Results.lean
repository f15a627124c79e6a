import LetLang.Compiler
import LetLang.Proofs.Typing.Judgements

/-!
What a result of the compiler says about its stages. A stage has a result if the one before it has
one, and fails where that one fails or on its own account.
-/

namespace LetLang

namespace Result

variable {ε ε' α : Type}

theorem mapError_eq_ok_iff {g : ε → ε'} {r : Result ε α} {a : α} :
    r.mapError g = .ok a ↔ r = .ok a := by
  cases r <;> simp [mapError]

theorem mapError_eq_error_iff {g : ε → ε'} {r : Result ε α} {f : Failure ε'} :
    r.mapError g = .error f ↔ ∃ f', r = .error f' ∧ f'.map g = f := by
  cases r <;> simp [mapError]

theorem ofOption_eq_ok_iff {o : Option α} {a : α} :
    (ofOption o : Result ε α) = .ok a ↔ o = some a := by
  cases o <;> simp [ofOption]

theorem ofOption_eq_error_iff {o : Option α} {f : Failure ε} :
    (ofOption o : Result ε α) = .error f ↔ o = none ∧ f = .abort := by
  cases o <;> simp [ofOption, eq_comm]

end Result

namespace Compiler

variable {catalog : Catalog} {options : Java.Options} {source : String}

theorem tokens_eq_ok {ts : List Token} (h : tokens source = .ok ts) :
    Lexer.lex source = ⟨ts, none⟩ := by
  unfold tokens at h
  dsimp only at h
  split at h
  · cases h
  · next hnone =>
    cases h
    rw [← hnone]

theorem tree_of_lex {ts : List Token} (h : Lexer.lex source = ⟨ts, none⟩) :
    tree source = (parse source ts).mapError .parse := by
  rw [tree, tokens, h]
  rfl

theorem tree_eq_ok {program : Block .parsed} (h : tree source = .ok program) :
    ∃ tokens, Lexer.lex source = ⟨tokens, none⟩ ∧ parse source tokens = .ok program := by
  obtain ⟨ts, ht, hp⟩ := Except.bind_eq_ok_iff.1 h
  exact ⟨ts, tokens_eq_ok ht, Result.mapError_eq_ok_iff.1 hp⟩

theorem tree_eq_error {f : Failure CompileError} (h : tree source = .error f) :
    tokens source = .error f ∨ ∃ ts g, Lexer.lex source = ⟨ts, none⟩ ∧
      parse source ts = .error g ∧ g.map .parse = f := by
  refine (Except.bind_eq_error_iff.1 h).imp_right ?_
  rintro ⟨ts, ht, hp⟩
  obtain ⟨g, hg, hf⟩ := Result.mapError_eq_error_iff.1 hp
  exact ⟨ts, g, tokens_eq_ok ht, hg, hf⟩

theorem typedTree_eq_ok {program' : Block .typed} (h : typedTree catalog source = .ok program') :
    ∃ program, tree source = .ok program ∧
      (Typing.program catalog .root program).1 = .ok program' := by
  obtain ⟨program, ht, hp⟩ := Except.bind_eq_ok_iff.1 h
  refine ⟨program, ht, ?_⟩
  split at hp
  · next hok =>
    cases hp
    exact hok
  · cases hp

theorem typedTree_eq_error {f : Failure CompileError} (h : typedTree catalog source = .error f) :
    tree source = .error f ∨ ∃ program e, tree source = .ok program ∧
      (Typing.program catalog .root program).1 = .error e ∧ f = .error (.typing e) := by
  refine (Except.bind_eq_error_iff.1 h).imp_right ?_
  rintro ⟨program, ht, hp⟩
  split at hp
  · cases hp
  · next e he =>
    cases hp
    exact ⟨program, e, ht, he, rfl⟩

theorem compile_eq_ok {text : String} (h : compile catalog options source = .ok text) :
    ∃ program, typedTree catalog source = .ok program ∧
      Java.generate? catalog options program = some text := by
  obtain ⟨program, ht, hg⟩ := Except.bind_eq_ok_iff.1 h
  exact ⟨program, ht, Result.ofOption_eq_ok_iff.1 hg⟩

theorem compile_eq_error_iff {f : Failure CompileError} :
    compile catalog options source = .error f ↔ typedTree catalog source = .error f ∨
      f = .abort ∧ ∃ program, typedTree catalog source = .ok program ∧
        Java.generate? catalog options program = none := by
  refine Except.bind_eq_error_iff.trans (or_congr_right ?_)
  simp only [Result.ofOption_eq_error_iff]
  grind

/-- A source that can be typed can be read. -/
theorem exists_typed_of_isOk {scope : Scope} (h : (typedIn catalog scope source).1.isOk) :
    ∃ program program', parseProgram source = .ok program ∧
      (Typing.program catalog scope program).1 = .ok program' := by
  unfold typedIn at h
  split at h
  · cases h
  · next program hp =>
    split at h
    · next program' last ht => exact ⟨program, program', hp, by rw [ht]⟩
    · cases h

end Compiler

end LetLang
