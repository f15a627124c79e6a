import LetLang.CommandLine
import LetLang.Proofs.Compiler.Limits

/-!
The command beside the compiler. Both take a source through the same stages; the command leaves off
after the last stage that it is asked for and prints what it has by then. So it prints what the
stages give, or the error that the compiler would report, unless that error is one of a later stage.
-/

namespace LetLang

open Text (byteLength)

/-- The number of the stage that an error belongs to. -/
def CompileError.stage : CompileError → Nat
  | lex _ => 0
  | parse _ => 1
  | typing _ => 2

namespace CommandLine

/-- The number of the last stage that is needed. -/
def Emit.stage : Emit → Nat
  | tokens => 0
  | tree => 1
  | typedTree | java => 2

def Emit.name : Emit → String
  | tokens => "tokens"
  | tree => "ast"
  | typedTree => "typed"
  | java => "java"

/-- Arguments that give every flag. -/
def flags (emit : Emit) (className : String) (indent : Nat) : List String :=
  ["--emit=" ++ emit.name, "--class-name=" ++ className, "--indent=" ++ toString indent]

section Reports

variable (options : Java.Options) (source : String)

/-- What is printed for a source whose stages have results, as far as they are needed. -/
inductive Prints : Emit → String → Prop
  | tokens {ts : List Token} : Lexer.lex source = ⟨ts, none⟩ →
      Prints .tokens (String.join (ts.map fun t => t.describe ++ "\n"))
  | tree {ts : List Token} {program : Block .parsed} {text : String} :
      Lexer.lex source = ⟨ts, none⟩ → parse source ts = .ok program →
      program.outline? = some text → Prints .tree text
  | typedTree {ts : List Token} {program : Block .parsed} {program' : Block .typed}
      {text : String} :
      Lexer.lex source = ⟨ts, none⟩ → parse source ts = .ok program →
      (Typing.program .standard .root program).1 = .ok program' →
      program'.outline? = some text → Prints .typedTree text
  | java {text : String} : Compiler.compile .standard options source = .ok text → Prints .java text

/-- A line of what would be printed needs more padding than there can be. -/
inductive TooWide : Emit → Prop
  | tree {ts : List Token} {program : Block .parsed} :
      Lexer.lex source = ⟨ts, none⟩ → parse source ts = .ok program →
      program.outline? = none → TooWide .tree
  | typedTree {ts : List Token} {program : Block .parsed} {program' : Block .typed} :
      Lexer.lex source = ⟨ts, none⟩ → parse source ts = .ok program →
      (Typing.program .standard .root program).1 = .ok program' →
      program'.outline? = none → TooWide .typedTree
  | java {ts : List Token} {program : Block .parsed} {program' : Block .typed} :
      Lexer.lex source = ⟨ts, none⟩ → parse source ts = .ok program →
      (Typing.program .standard .root program).1 = .ok program' →
      Java.generate? .standard options program' = none → TooWide .java
  | error {emit : Emit} {e : CompileError} :
      Compiler.compile .standard options source = .error (.error e) → e.stage ≤ emit.stage →
      e.render? source = none → TooWide emit

/-- What the command leaves behind for a source that it could read. -/
inductive Reports (emit : Emit) : Outcome → Prop
  | printed {text : String} : Prints options source emit text → Reports emit ⟨0, text, ""⟩
  | refused {e : CompileError} {text : String} :
      Compiler.compile .standard options source = .error (.error e) → e.stage ≤ emit.stage →
      e.render? source = some text → Reports emit ⟨1, "", text ++ "\n"⟩
  | tooWide : TooWide options source emit → Reports emit .aborted
  /-- Some span does not fit, and the compiler gets no further than the command. -/
  | tooLong : Span.maxLength < byteLength source.toList →
      Compiler.compile .standard options source = .error .abort →
      (∀ text, ¬ Prints options source emit text) → Reports emit .aborted

end Reports

/-! The arguments. -/

theorem Emit.ofName?_name (emit : Emit) : ofName? emit.name = some emit := by
  cases emit <;> rfl

/-- A flag of two minus signs with its value behind the first `=`. -/
theorem ofText_flag {flag : Flag} (name value : String) (hname : Flag.ofName? name = some flag)
    (hplain : '=' ∉ name.toList) :
    Argument.ofText ("--" ++ name ++ "=" ++ value) = .flagWithValue flag value := by
  obtain ⟨c, cs, hbody⟩ : ∃ c cs, name.toList ++ '=' :: value.toList = c :: cs := by
    cases name.toList <;> exact ⟨_, _, rfl⟩
  have htext : ("--" ++ name ++ "=" ++ value).toList = '-' :: '-' :: c :: cs := by
    simp [← hbody]
  simp only [Argument.ofText, htext]
  rw [← hbody, Text.takeWhile_ne hplain, Text.dropWhile_ne hplain]
  simp only [String.ofList_toList, Argument.ofLong, hname]

theorem number?_toString {n : Nat} (h : n ≤ Span.maxOffset) : number? (toString n) = some n := by
  have hdigits : (toString n).toList = Text.numeral n := by
    rw [Nat.toString_eq_ofList_toDigits, String.toList_ofList, Text.numeral]
  have hplus : '+' ∉ Text.numeral n := fun hc =>
    absurd (Text.isDigit_of_mem (Text.isDigits_numeral n) hc) (by decide)
  unfold number?
  rw [hdigits]
  split
  · next heq => exact absurd (heq ▸ List.mem_cons_self ..) hplus
  · simp [Text.isDigits_numeral, Text.digitsValue_numeral, h]

theorem command?_flags (emit : Emit) (className : String) {indent : Nat}
    (h : indent ≤ Span.maxOffset) :
    command? (flags emit className indent) = some (.run ⟨none, emit, ⟨className, indent⟩⟩) := by
  have hemit : Argument.ofText ("--emit=" ++ emit.name) = .flagWithValue .emit emit.name :=
    ofText_flag "emit" _ rfl (by decide)
  have hclass : Argument.ofText ("--class-name=" ++ className) = .flagWithValue .className className :=
    ofText_flag "class-name" _ rfl (by decide)
  have hindent : Argument.ofText ("--indent=" ++ toString indent) =
      .flagWithValue .indent (toString indent) := ofText_flag "indent" _ rfl (by decide)
  simp only [command?, flags, arguments?, hemit, hclass, hindent, Given.setFlag?,
    Emit.ofName?_name, number?_toString h, Given.nothing, once, Option.map_some, Option.bind_some,
    Given.request, Option.getD_some]

theorem decode_toUTF8 (source : String) : decode source.toUTF8 = .ok source := by
  have hdecode : String.fromUTF8? source.toUTF8 = some source := dif_pos source.isValidUTF8
  rw [decode, hdecode]

/-! The stages. -/

theorem tokens_eq_ok_iff {source : String} {ts : List Token} :
    Compiler.tokens source = .ok ts ↔ Lexer.lex source = ⟨ts, none⟩ := by
  refine ⟨Compiler.tokens_eq_ok, fun h => ?_⟩
  rw [Compiler.tokens, h]

theorem tree_eq_ok_iff {source : String} {program : Block .parsed} :
    Compiler.tree source = .ok program ↔
      ∃ ts, Lexer.lex source = ⟨ts, none⟩ ∧ parse source ts = .ok program := by
  refine ⟨Compiler.tree_eq_ok, ?_⟩
  rintro ⟨ts, hlex, hparse⟩
  rw [Compiler.tree_of_lex hlex]
  exact Result.mapError_eq_ok_iff.2 hparse

theorem typedTree_eq_ok_iff {catalog : Catalog} {source : String} {program' : Block .typed} :
    Compiler.typedTree catalog source = .ok program' ↔
      ∃ ts program, Lexer.lex source = ⟨ts, none⟩ ∧ parse source ts = .ok program ∧
        (Typing.program catalog .root program).1 = .ok program' := by
  constructor
  · intro h
    obtain ⟨program, htree, hprogram⟩ := Compiler.typedTree_eq_ok h
    obtain ⟨ts, hlex, hparse⟩ := Compiler.tree_eq_ok htree
    exact ⟨ts, program, hlex, hparse, hprogram⟩
  · rintro ⟨ts, program, hlex, hparse, hprogram⟩
    refine Except.bind_eq_ok_iff.2 ⟨program, tree_eq_ok_iff.2 ⟨ts, hlex, hparse⟩, ?_⟩
    rw [hprogram]

variable {source : String} {e : CompileError}

theorem stage_of_tokens (h : Compiler.tokens source = .error (.error e)) : e.stage = 0 := by
  unfold Compiler.tokens at h
  dsimp only at h
  split at h
  · next f _ =>
    cases f with
    | error l =>
      cases h
      rfl
    | abort => cases h
  · cases h

/-- Errors of the compiler are those of typing, since what comes after it reports none. -/
theorem compile_eq_error_iff_typedTree {options : Java.Options} :
    Compiler.compile .standard options source = .error (.error e) ↔
      Compiler.typedTree .standard source = .error (.error e) := by
  rw [Compiler.compile_eq_error_iff]
  refine or_iff_left ?_
  rintro ⟨h, -⟩
  cases h

theorem tree_eq_error_iff :
    Compiler.tree source = .error (.error e) ↔
      Compiler.typedTree .standard source = .error (.error e) ∧ e.stage ≤ 1 := by
  constructor
  · intro h
    refine ⟨Except.bind_eq_error_iff.2 (.inl h), ?_⟩
    rcases Compiler.tree_eq_error h with h | ⟨_, g, -, -, hg⟩
    · rw [stage_of_tokens h]
      exact Nat.zero_le 1
    · cases g with
      | error p =>
        cases hg
        exact Nat.le_refl 1
      | abort => cases hg
  · rintro ⟨h, hstage⟩
    rcases Compiler.typedTree_eq_error h with h | ⟨_, t, -, -, ht⟩
    · exact h
    · cases ht
      exact absurd hstage (Nat.not_succ_le_self 1)

theorem tokens_eq_error_iff :
    Compiler.tokens source = .error (.error e) ↔
      Compiler.typedTree .standard source = .error (.error e) ∧ e.stage ≤ 0 := by
  constructor
  · intro h
    have htree : Compiler.tree source = .error (.error e) :=
      Except.bind_eq_error_iff.2 (.inl h)
    exact ⟨(tree_eq_error_iff.1 htree).1, Nat.le_of_eq (stage_of_tokens h)⟩
  · rintro ⟨h, hstage⟩
    rcases Compiler.tree_eq_error (tree_eq_error_iff.2 ⟨h, by omega⟩) with h | ⟨_, g, -, -, hg⟩
    · exact h
    · cases g with
      | error p =>
        cases hg
        exact absurd hstage (Nat.not_succ_le_self 0)
      | abort => cases hg

/-- No stage stops short unless the source is too long for its spans. -/
theorem lt_of_typedTree (h : Compiler.typedTree .standard source = .error .abort) :
    Span.maxLength < byteLength source.toList :=
  Nat.lt_of_not_le fun hlen => Compiler.typedTree_ne_abort hlen h

/-! What is printed, and what is reported. -/

variable {r : Request} {text : String}

theorem result_eq_ok_iff :
    result r source = .ok text ↔ Prints r.options source r.emit text := by
  obtain ⟨file, emit, options⟩ := r
  cases emit with
  | tokens =>
    refine Except.bind_eq_ok_iff.trans ⟨?_, ?_⟩
    · rintro ⟨ts, hts, htext⟩
      cases htext
      exact .tokens (tokens_eq_ok_iff.1 hts)
    · rintro ⟨hlex⟩
      exact ⟨_, tokens_eq_ok_iff.2 hlex, rfl⟩
  | tree =>
    refine Except.bind_eq_ok_iff.trans ⟨?_, ?_⟩
    · rintro ⟨program, htree, htext⟩
      obtain ⟨ts, hlex, hparse⟩ := tree_eq_ok_iff.1 htree
      exact .tree hlex hparse (Result.ofOption_eq_ok_iff.1 htext)
    · rintro ⟨⟩
      next hlex hparse htext =>
      exact ⟨_, tree_eq_ok_iff.2 ⟨_, hlex, hparse⟩, Result.ofOption_eq_ok_iff.2 htext⟩
  | typedTree =>
    refine Except.bind_eq_ok_iff.trans ⟨?_, ?_⟩
    · rintro ⟨program', htyped, htext⟩
      obtain ⟨ts, program, hlex, hparse, hprogram⟩ := typedTree_eq_ok_iff.1 htyped
      exact .typedTree hlex hparse hprogram (Result.ofOption_eq_ok_iff.1 htext)
    · rintro ⟨⟩
      next hlex hparse hprogram htext =>
      have htyped := typedTree_eq_ok_iff.2 ⟨_, _, hlex, hparse, hprogram⟩
      exact ⟨_, htyped, Result.ofOption_eq_ok_iff.2 htext⟩
  | java =>
    refine ⟨.java, ?_⟩
    rintro ⟨⟩
    assumption

/-- Giving a text reports no error. -/
theorem bind_ofOption_eq_error_iff {α : Type} {s : Result CompileError α} {f : α → Option String} :
    (s >>= fun a => Result.ofOption (f a)) = .error (.error e) ↔ s = .error (.error e) := by
  rw [Except.bind_eq_error_iff]
  refine or_iff_left ?_
  rintro ⟨a, -, h⟩
  cases (Result.ofOption_eq_error_iff.1 h).2

theorem result_eq_error_iff :
    result r source = .error (.error e) ↔
      Compiler.compile .standard r.options source = .error (.error e) ∧
        e.stage ≤ r.emit.stage := by
  obtain ⟨file, emit, options⟩ := r
  have hle : e.stage ≤ 2 := by cases e <;> simp [CompileError.stage]
  rw [compile_eq_error_iff_typedTree]
  cases emit with
  | tokens =>
    refine Iff.trans ?_ tokens_eq_error_iff
    refine Except.bind_eq_error_iff.trans (or_iff_left ?_)
    rintro ⟨ts, -, h⟩
    cases h
  | tree => exact bind_ofOption_eq_error_iff.trans tree_eq_error_iff
  | typedTree => exact bind_ofOption_eq_error_iff.trans (iff_self_and.2 fun _ => hle)
  | java => exact compile_eq_error_iff_typedTree.trans (iff_self_and.2 fun _ => hle)

/-- Without a result and without an error, a line is too wide or the source too long. -/
theorem reports_of_abort (h : result r source = .error .abort) :
    Reports r.options source r.emit .aborted := by
  have hprints : ∀ text, ¬ Prints r.options source r.emit text := by
    intro text htext
    cases (result_eq_ok_iff.2 htext).symm.trans h
  -- where a stage stops short, so does the compiler
  have htyped : Compiler.typedTree .standard source = .error .abort →
      Reports r.options source r.emit .aborted := fun hstop =>
    .tooLong (lt_of_typedTree hstop) (Compiler.compile_eq_error_iff.2 (.inl hstop)) hprints
  have htree : Compiler.tree source = .error .abort →
      Reports r.options source r.emit .aborted := fun hstop =>
    htyped (Except.bind_eq_error_iff.2 (.inl hstop))
  obtain ⟨file, emit, options⟩ := r
  cases emit with
  | tokens =>
    rcases Except.bind_eq_error_iff.1 h with hstop | ⟨ts, -, hts⟩
    · exact htree (Except.bind_eq_error_iff.2 (.inl hstop))
    · cases hts
  | tree =>
    rcases Except.bind_eq_error_iff.1 h with hstop | ⟨program, hprogram, hnone⟩
    · exact htree hstop
    · obtain ⟨ts, hlex, hparse⟩ := tree_eq_ok_iff.1 hprogram
      exact .tooWide (.tree hlex hparse (Result.ofOption_eq_error_iff.1 hnone).1)
  | typedTree =>
    rcases Except.bind_eq_error_iff.1 h with hstop | ⟨program', hprogram', hnone⟩
    · exact htyped hstop
    · obtain ⟨ts, program, hlex, hparse, htyping⟩ := typedTree_eq_ok_iff.1 hprogram'
      exact .tooWide (.typedTree hlex hparse htyping (Result.ofOption_eq_error_iff.1 hnone).1)
  | java =>
    rcases Compiler.compile_eq_error_iff.1 h with hstop | ⟨-, program', hprogram', hnone⟩
    · exact htyped hstop
    · obtain ⟨ts, program, hlex, hparse, htyping⟩ := typedTree_eq_ok_iff.1 hprogram'
      exact .tooWide (.java hlex hparse htyping hnone)

/-- What is too wide to be printed is not printed. -/
theorem outcome_of_tooWide (h : TooWide r.options source r.emit) : outcome r source = .aborted := by
  obtain ⟨file, emit, options⟩ := r
  have hnone {α : Type} {s : Result CompileError α} {a : α} {f : α → Option String}
      (hs : s = .ok a) (hf : f a = none) :
      (s >>= fun a => Result.ofOption (f a)) = .error .abort := by
    rw [Except.bind_eq_error_iff]
    exact .inr ⟨a, hs, Result.ofOption_eq_error_iff.2 ⟨hf, rfl⟩⟩
  cases h with
  | tree hlex hparse htext =>
    have hresult := hnone (tree_eq_ok_iff.2 ⟨_, hlex, hparse⟩) htext
    rw [outcome, show result ⟨file, .tree, options⟩ source = _ from hresult]
  | typedTree hlex hparse hprogram htext =>
    have hresult := hnone (typedTree_eq_ok_iff.2 ⟨_, _, hlex, hparse, hprogram⟩) htext
    rw [outcome, show result ⟨file, .typedTree, options⟩ source = _ from hresult]
  | java hlex hparse hprogram htext =>
    have hresult := hnone (typedTree_eq_ok_iff.2 ⟨_, _, hlex, hparse, hprogram⟩) htext
    rw [outcome, show result ⟨file, .java, options⟩ source = _ from hresult]
  | error he hstage hshown =>
    rw [outcome, result_eq_error_iff.2 ⟨he, hstage⟩]
    dsimp only
    rw [hshown]

theorem outcome_eq_iff {o : Outcome} :
    outcome r source = o ↔ Reports r.options source r.emit o := by
  constructor
  · rintro rfl
    unfold outcome
    split
    · next htext => exact .printed (result_eq_ok_iff.1 htext)
    · next habort => exact reports_of_abort habort
    · next e he =>
      obtain ⟨hcompile, hstage⟩ := result_eq_error_iff.1 he
      split
      · next text htext => exact .refused hcompile hstage htext
      · next hnone => exact .tooWide (.error hcompile hstage hnone)
  · intro h
    cases h with
    | printed htext => rw [outcome, result_eq_ok_iff.2 htext]
    | refused he hstage htext =>
      rw [outcome, result_eq_error_iff.2 ⟨he, hstage⟩]
      dsimp only
      rw [htext]
    | tooWide h => exact outcome_of_tooWide h
    | tooLong hlen habort hprints =>
      unfold outcome
      split
      · next text htext => exact absurd (result_eq_ok_iff.1 htext) (hprints text)
      · rfl
      · next e he => cases (result_eq_error_iff.1 he).1.symm.trans habort

/-- What the command has to do with the compiler, for one source. -/
structure Agrees (r : Request) (source : String) : Prop where
  outcome : ∀ o, outcome r source = o ↔ Reports r.options source r.emit o
  /-- The same error is reported from its stage on, whatever else is asked for. -/
  later : ∀ (r' : Request) (e : CompileError),
    Compiler.compile .standard r.options source = .error (.error e) →
    e.stage ≤ r.emit.stage → e.stage ≤ r'.emit.stage →
    CommandLine.outcome r' source = CommandLine.outcome r source
  /-- The options are for what is compiled. -/
  options : ∀ r' : Request, r'.emit = r.emit → r.emit ≠ .java →
    CommandLine.outcome r' source = CommandLine.outcome r source

theorem agrees (r : Request) (source : String) : Agrees r source where
  outcome _ := outcome_eq_iff
  later r' e he hstage hstage' := by
    have hcompile' : Compiler.compile .standard r'.options source = .error (.error e) :=
      compile_eq_error_iff_typedTree.2 (compile_eq_error_iff_typedTree.1 he)
    rw [CommandLine.outcome, CommandLine.outcome, result_eq_error_iff.2 ⟨he, hstage⟩,
      result_eq_error_iff.2 ⟨hcompile', hstage'⟩]
  options r' hemit hjava := by
    have hresult : result r' source = result r source := by
      unfold result
      rw [hemit]
      cases hr : r.emit with
      | java => exact absurd hr hjava
      | _ => rfl
    rw [CommandLine.outcome, CommandLine.outcome, hresult]

/-- Every list of arguments that is in order and does not ask for the version, and every input of
valid UTF-8. The command prints what the stages give that are needed for it, or reports the error of
the compiler if it is one of those stages; and there are arguments for every request. -/
theorem run_agrees {m : Type → Type} [Monad m] [LawfulMonad m] (args : List String)
    (input : Option String → m (Except String String)) (r : Request) (source : String)
    (hargs : command? args = some (.run r))
    (hinput : input r.file = pure (decode source.toUTF8)) :
    run args input = pure (outcome r source) ∧ Agrees r source ∧
      ∀ emit className indent, indent ≤ Span.maxOffset →
        command? (flags emit className indent) =
          some (.run ⟨none, emit, ⟨className, indent⟩⟩) := by
  refine ⟨?_, agrees r source, fun emit className _ h => command?_flags emit className h⟩
  unfold run
  rw [hargs]
  dsimp only
  rw [hinput, pure_bind, decode_toUTF8]

/-- An error of typing is not met by a command that prints the tree. -/
theorem run_agrees_of_undeclared :
    command? (flags .tree "A" 2) = some (.run ⟨none, .tree, ⟨"A", 2⟩⟩) ∧
    (run (flags .tree "A" 2) (fun _ => pure (decode "x = 1;".toUTF8)) : Id Outcome) =
      pure ⟨0, "assignment x\n  int 1 (4..5)\n", ""⟩ ∧
    Agrees ⟨none, .tree, ⟨"A", 2⟩⟩ "x = 1;" ∧
    command? (flags .java "A" 2) = some (.run ⟨none, .java, ⟨"A", 2⟩⟩) ∧
    (run (flags .java "A" 2) (fun _ => pure (decode "x = 1;".toUTF8)) : Id Outcome) =
      pure ⟨1, "", "error: undeclared variable `x`\n --> line 1, col 1\n  |\n" ++
        "1 | x = 1;\n  | ^\n"⟩ ∧
    Agrees ⟨none, .java, ⟨"A", 2⟩⟩ "x = 1;" := by
  have htree : command? (flags .tree "A" 2) = some (.run ⟨none, .tree, ⟨"A", 2⟩⟩) := by
    decide +kernel
  have hjava : command? (flags .java "A" 2) = some (.run ⟨none, .java, ⟨"A", 2⟩⟩) := by
    decide +kernel
  have hshown : outcome ⟨none, .tree, ⟨"A", 2⟩⟩ "x = 1;" =
      ⟨0, "assignment x\n  int 1 (4..5)\n", ""⟩ := by decide +kernel
  have hreported : outcome ⟨none, .java, ⟨"A", 2⟩⟩ "x = 1;" =
      ⟨1, "", "error: undeclared variable `x`\n --> line 1, col 1\n  |\n" ++
        "1 | x = 1;\n  | ^\n"⟩ := by decide +kernel
  let input : Option String → Id (Except String String) := fun _ => pure (decode "x = 1;".toUTF8)
  obtain ⟨hrun, hagrees, -⟩ := run_agrees _ input _ "x = 1;" htree rfl
  obtain ⟨hrun', hagrees', -⟩ := run_agrees _ input _ "x = 1;" hjava rfl
  rw [hshown] at hrun
  rw [hreported] at hrun'
  exact ⟨htree, hrun, hagrees, hjava, hrun', hagrees'⟩

end CommandLine

end LetLang
