import LetLang.Proofs.Compiler.Results
import LetLang.Proofs.Java.Commands
import LetLang.Proofs.Java.Unambiguous
import LetLang.Proofs.Tree.Parsing
import LetLang.Proofs.Typing.Checking

/-!
Compiled programs read back. The text of a compiled source has one reading as a class of Java, and
that reading is the typed program.
-/

namespace LetLang

namespace Java

open Rules

theorem laid_blank : Laid [.blank] [] := laid_line Sealed.nil.printed

theorem laid_opening {className : String} (h : IsName className) :
    Laid [⟨0, "public final class " ++ className ++ " \x7b"⟩, .blank,
      ⟨1, "public static void main(String[] args) \x7b"⟩] (Grammar.opening className) := by
  have hbrace := @sealed_closing "\x7b" (by decide)
  have hclass := (@sealed_words ["public", "final", "class"] (by decide)).append
    ((sealed_word h.isWord).append hbrace)
  have hname := @Printed.close _ _ "(" (@printed_word "main" (by decide)) (by decide)
  have hbracket := @Printed.close _ _ "[" (@printed_word "String" (by decide)) (by decide)
  have htype := hbracket.append (@sealed_closing "]" (by decide)).printed.space
  have hparams := @Printed.close _ _ ")"
    (htype.printed_append (@printed_word "args" (by decide))) (by decide)
  have hmain := (@sealed_words ["public", "static", "void"] (by decide)).append
    (hname.append (hparams.printed.space.append hbrace))
  have hfirst : Laid [⟨0, "public final class " ++ className ++ " \x7b"⟩]
      [word "public", word "final", word "class", word className, symbol "\x7b"] := by
    refine laid_line ?_
    simpa using hclass.printed
  have hsecond : Laid [⟨1, "public static void main(String[] args) \x7b"⟩]
      [word "public", word "static", word "void", word "main", symbol "(", word "String",
        symbol "[", symbol "]", word "args", symbol ")", symbol "\x7b"] := by
    refine laid_line ?_
    simpa using hmain.printed
  exact hfirst.append (laid_blank.append hsecond)

theorem laid_ending : Laid [⟨1, "\x7d"⟩, .blank, ⟨0, "\x7d"⟩] [symbol "\x7d", symbol "\x7d"] :=
  (laid_closing 1).append (laid_blank.append (laid_closing 0))

/-- What is generated for a typed program reads as that program. -/
theorem readsAs_of_statements {catalog : Catalog} {options : Options} {program : Block .typed}
    {text : String} {js : List Atom} (hclass : IsName options.className)
    (hg : generate? catalog options program = some text)
    (hjs : Grammar.Statements js (commands catalog program))
    (hl : Laid (block catalog 2 program) js) :
    ReadsAs text ⟨options.className, commands catalog program⟩ := by
  have hlines : Laid (lines catalog options.className program)
      (Grammar.opening options.className ++ js ++ [symbol "\x7d", symbol "\x7d"]) :=
    ((laid_opening hclass).append hl).append laid_ending
  have hsays := hlines options.indent [] [] .nil
  rw [← laidOut_of_layout? hg, List.append_nil, List.append_nil, List.append_assoc] at hsays
  exact ⟨_, hsays, .mk hclass hjs⟩

/-- Every source that is compiled, for any class name that is a name in Java: the text reads as the
typed program of the source and as no other program, and every name that is declared is a name in
Java, is not reserved there and hides no function. -/
theorem readsAs_iff_of_compile (options : Options) (source text : String)
    (hclass : IsName options.className)
    (h : Compiler.compile .standard options source = .ok text) :
    ∃ program, Compiler.typedTree .standard source = .ok program ∧
      (∀ p, ReadsAs text p ↔ p = ⟨options.className, commands .standard program⟩) ∧
      ∀ x ∈ Stmt.declaredAll program, IsName x ∧ ¬ HostReserved .standard x := by
  obtain ⟨program, htyped, hg⟩ := Compiler.compile_eq_ok h
  obtain ⟨tree, htree, hprogram⟩ := Compiler.typedTree_eq_ok htyped
  obtain ⟨tokens, hlex, hparse⟩ := Compiler.tree_eq_ok htree
  obtain ⟨words, hwords, hss, -⟩ := program_of_parse hlex hparse
  have hrules := (Typing.block_gives_iff .root tree).1 ⟨Typing.block_of_program hprogram, rfl⟩
  obtain ⟨⟨js, hjs, hl⟩, -, hdeclared⟩ :=
    statements_printed .standard hss hwords named_root rfl hrules
  have hreads := readsAs_of_statements hclass hg hjs (hl 2)
  refine ⟨program, htyped, fun p => ⟨fun hp => hp.unique hreads, ?_⟩, hdeclared⟩
  rintro rfl
  exact hreads

set_option maxRecDepth 10000 in
theorem readsAs_of_nested_source :
    IsName "Main" ∧ ∃ text,
      Compiler.compile .standard ⟨"Main", 2⟩
        "LET x: DECIMAL = (1 + 3) * 2 - 4; IF x == 4.0 THEN print(\"four\"); END" = .ok text ∧
      ∃ program,
        Compiler.typedTree .standard
          "LET x: DECIMAL = (1 + 3) * 2 - 4; IF x == 4.0 THEN print(\"four\"); END" = .ok program ∧
        (∀ p, ReadsAs text p ↔ p = ⟨"Main", commands .standard program⟩) ∧
        ∀ x ∈ Stmt.declaredAll program, IsName x ∧ ¬ HostReserved .standard x := by
  have hclass : IsName "Main" := by decide
  have htext : Compiler.compile .standard ⟨"Main", 2⟩
      "LET x: DECIMAL = (1 + 3) * 2 - 4; IF x == 4.0 THEN print(\"four\"); END" = .ok
        ("public final class Main \x7b\n\n  public static void main(String[] args) \x7b\n" ++
          "    double x = (1 + 3) * 2 - 4;\n    if (x == 4.0) \x7b\n" ++
          "      System.out.println(\"four\");\n    \x7d\n  \x7d\n\n\x7d\n") :=
    Except.toOption_eq_some_iff.1 (by decide +kernel)
  exact ⟨hclass, _, htext, readsAs_iff_of_compile ⟨"Main", 2⟩ _ _ hclass htext⟩

end Java

end LetLang
