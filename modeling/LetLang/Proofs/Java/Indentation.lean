import LetLang.Proofs.Compiler.Results
import LetLang.Proofs.Java.Levels
import LetLang.Proofs.Java.Nesting
import LetLang.Proofs.Tree.Parsing
import LetLang.Proofs.Typing.Checking

/-! How a class is laid out. The braces of its lines nest, and only the first and the last line
stand at the outside. Two lines are blank, those next to these two. -/

namespace LetLang.Java

open Rules
open Text (Line)

/-- The text in lines. Each line is blank, or is indented by the braces that are open before it. -/
structure WellLaidOut (indent : Nat) (text : List Char) (lines : List (List Char)) : Prop where
  lines_eq : text = lines.flatMap (· ++ ['\n'])
  unbroken : ∀ line ∈ lines, '\n' ∉ line
  nonneg : ∀ cs, cs <+: text → 0 ≤ braceDepth cs
  outermost : ∀ before after, lines = before ++ after →
    (braceDepth before.flatten = 0 ↔ before = [] ∨ after = [])
  blank : ∀ i, lines[i]? = some [] ↔ i = 1 ∨ i + 2 = lines.length
  indented : ∀ before line after, lines = before ++ line :: after → line ≠ [] →
    Indented indent (braceDepth before.flatten) line
  ended : text.getLast? = some '\n'

/-! The blank lines. -/

section

variable {catalog : Catalog}

mutual

theorem text_ne_of_stmt {level : Nat} :
    (s : Stmt .typed) → ∀ l ∈ stmt catalog level s, l.text ≠ ""
  | .expr _ _ => by simp [stmt]
  | .declaration _ _ none _ => by simp [stmt]
  | .declaration _ _ (some _) _ => by simp [stmt]
  | .assignment _ _ _ => by simp [stmt]
  | .branch _ yes no _ => by
    have hyes := @text_ne_of_block (level + 1) yes
    have hno := @text_ne_of_block (level + 1) no
    intro l hl
    simp only [stmt, List.mem_cons, List.mem_append, List.not_mem_nil, or_false] at hl
    rcases hl with rfl | (hl | hl) | rfl
    · simp
    · exact hyes l hl
    · split at hl
      · cases hl
      · rcases List.mem_cons.1 hl with rfl | hl
        · simp
        · exact hno l hl
    · simp
  | .loop _ body _ => by
    have hbody := @text_ne_of_block (level + 1) body
    intro l hl
    simp only [stmt, List.mem_cons, List.mem_append, List.not_mem_nil, or_false] at hl
    rcases hl with rfl | hl | rfl
    · simp
    · exact hbody l hl
    · simp

theorem text_ne_of_block {level : Nat} :
    (ss : Block .typed) → ∀ l ∈ block catalog level ss, l.text ≠ ""
  | [] => nofun
  | s :: ss => List.forall_mem_append.2 ⟨text_ne_of_stmt s, text_ne_of_block ss⟩

end

end

theorem padded_ne_nil {l : Line} (h : l.text ≠ "") (indent : Nat) : padded indent l ≠ [] := by
  intro hnil
  apply h
  exact String.toList_eq_nil_iff.1 (List.append_eq_nil_iff.1 hnil).2

theorem getElem?_eq_nil_iff {a b c d : List Char} {ms : List (List Char)} (ha : a ≠ [])
    (hb : b ≠ []) (hc : c ≠ []) (hd : d ≠ []) (hms : ∀ m ∈ ms, m ≠ []) (i : Nat) :
    (a :: [] :: b :: (ms ++ [c, [], d]))[i]? = some [] ↔ i = 1 ∨ i = ms.length + 4 := by
  match i with
  | 0 => simp [ha]
  | 1 => simp
  | 2 => simp [hb]
  | i + 3 =>
    simp only [List.getElem?_cons_succ]
    rcases Nat.lt_or_ge i ms.length with hlt | hge
    · rw [List.getElem?_append_left hlt, List.getElem?_eq_getElem hlt]
      have := hms _ (List.getElem_mem hlt)
      simp only [Option.some.injEq, this, false_iff]
      omega
    · obtain ⟨k, rfl⟩ := Nat.exists_eq_add_of_le hge
      rw [List.getElem?_append_right hge, Nat.add_sub_cancel_left]
      match k with
      | 0 => simp [hc]
      | 1 => simp
      | 2 => simp [hd]
      | k + 3 =>
        simp only [List.getElem?_cons_succ, List.getElem?_nil]
        simp

/-! The lines of a class. -/

section

variable (catalog : Catalog) (className : String) (program : Block .typed)

/-- The first line and the last one, and what is between them. -/
theorem lines_eq_cons : lines catalog className program =
    ⟨0, "public final class " ++ className ++ " \x7b"⟩ ::
      ((.blank :: ⟨1, "public static void main(String[] args) \x7b"⟩ ::
        (block catalog 2 program ++ [⟨1, "\x7d"⟩, .blank])) ++ [⟨0, "\x7d"⟩]) := by
  simp [lines]

theorem getElem?_lines_eq_nil_iff (indent i : Nat) :
    ((lines catalog className program).map (padded indent))[i]? = some [] ↔
      i = 1 ∨ i + 2 = ((lines catalog className program).map (padded indent)).length := by
  have hblank : padded indent .blank = [] := by
    rw [padded, Line.blank, Nat.zero_mul]
    rfl
  have hsolid : ∀ m ∈ (block catalog 2 program).map (padded indent), m ≠ [] := by
    intro m hm
    obtain ⟨l, hl, rfl⟩ := List.mem_map.1 hm
    exact padded_ne_nil (text_ne_of_block program l hl) indent
  have hfirst : padded indent ⟨0, "public final class " ++ className ++ " \x7b"⟩ ≠ [] :=
    padded_ne_nil (by simp) indent
  have hmain : padded indent ⟨1, "public static void main(String[] args) \x7b"⟩ ≠ [] :=
    padded_ne_nil (by decide) indent
  have hclose : ∀ level, padded indent ⟨level, "\x7d"⟩ ≠ [] := fun _ =>
    padded_ne_nil (by simp) indent
  have := getElem?_eq_nil_iff hfirst hmain (hclose 1) (hclose 0) hsolid i
  simpa [lines, hblank] using this

end

theorem nests_inner {ls : List Line} (h : Nests 2 2 ls 2) :
    Nests 1 1 (.blank :: ⟨1, "public static void main(String[] args) \x7b"⟩ ::
      (ls ++ [⟨1, "\x7d"⟩, .blank])) 1 := by
  have hbody : Body "public static void main(String[] args) ".toList := by constructor <;> decide
  have hopen : Step 1 1 ⟨1, "public static void main(String[] args) \x7b"⟩ 2 :=
    .opens hbody (by decide)
  have hclose : Nests 1 2 [⟨1, "\x7d"⟩, .blank] 1 :=
    .cons (.closes (Nat.le_refl 1)) (.single .blank)
  exact .cons .blank (.cons hopen ((h.mono (by decide)).append hclose))

section

variable {first last : Line} {inner : List Line}

/-- Between the first and the last line some brace is open. -/
theorem outermost_of_nests (hfirst : Step 0 0 first 1) (hinner : Nests 1 1 inner 1)
    (hlast : Step 0 1 last 0) (indent : Nat) {before after : List Line}
    (hls : first :: (inner ++ [last]) = before ++ after) :
    braceDepth (before.map (padded indent)).flatten = 0 ↔ before = [] ∨ after = [] := by
  have hall : Nests 0 0 (first :: (inner ++ [last])) 0 :=
    .cons hfirst ((hinner.mono (Nat.zero_le 1)).append (.single hlast))
  constructor
  · intro hzero
    cases before with
    | nil => exact .inl rfl
    | cons l before =>
      obtain ⟨rfl, hrest⟩ := List.cons.inj hls
      rcases List.eq_nil_or_concat after with rfl | ⟨after, l, rfl⟩
      · exact .inr rfl
      -- behind the first line and before the last one is a place of the inner lines
      have hinit : inner ++ [last] = (before ++ after) ++ [l] := by
        rw [hrest, List.concat_eq_append, List.append_assoc]
        rfl
      obtain ⟨m, hm, hbefore, -⟩ := hinner.split (Nat.le_refl 1) (List.append_inj' hinit rfl).1
      rw [List.map_cons, List.flatten_cons, braceDepth_append, hfirst.braceDepth_padded,
        hbefore.braceDepth_eq] at hzero
      omega
  · intro hends
    rcases hends with rfl | rfl
    · rfl
    · rw [List.append_nil] at hls
      rw [← hls, hall.braceDepth_eq]
      rfl

end

theorem indented_of_nests {ls : List Line} (h : Nests 0 0 ls 0) (indent : Nat)
    {before after : List (List Char)} {line : List Char}
    (hls : ls.map (padded indent) = before ++ line :: after) (hline : line ≠ []) :
    Indented indent (braceDepth before.flatten) line := by
  obtain ⟨lines, rest, rfl, rfl, hrest⟩ := List.map_eq_append_iff.1 hls
  obtain ⟨l, later, rfl, rfl, -⟩ := List.map_eq_cons_iff.1 hrest
  obtain ⟨m, -, hbefore, hafter⟩ := h.split (Nat.le_refl 0) rfl
  have hdepth : braceDepth (lines.map (padded indent)).flatten = m := by
    rw [hbefore.braceDepth_eq]
    omega
  rw [hdepth]
  cases hafter with
  | cons hl _ =>
    apply hl.indented
    intro hblank
    apply hline
    rw [hblank, padded, Line.blank, Nat.zero_mul]
    rfl

theorem step_class {className : String} (h : Flat className.toList) :
    Step 0 0 ⟨0, "public final class " ++ className ++ " \x7b"⟩ 1 := by
  have hbody : Body "public final class ".toList := by constructor <;> decide
  have hspace : Flat " ".toList := by decide
  have hopen : " \x7b".toList = " ".toList ++ ['\x7b'] := by decide
  apply Step.opens ((hbody.append h).append hspace)
  rw [String.toList_append, String.toList_append, hopen, List.append_assoc, List.append_assoc,
    List.append_assoc]

/-- A class is well laid out if the lines of its statements nest. -/
theorem wellLaidOut_of_nests {catalog : Catalog} {options : Options} {program : Block .typed}
    {text : String} (hclass : Flat options.className.toList)
    (hblock : Nests 2 2 (block catalog 2 program) 2)
    (hg : generate? catalog options program = some text) :
    ∃ lines, WellLaidOut options.indent text.toList lines := by
  have hfirst := step_class hclass
  have hlast : Step 0 1 ⟨0, "\x7d"⟩ 0 := .closes (Nat.le_refl 0)
  have hinner := nests_inner hblock
  have hlines := lines_eq_cons catalog options.className program
  have hall : Nests 0 0 (lines catalog options.className program) 0 := by
    rw [hlines]
    exact .cons hfirst ((hinner.mono (Nat.zero_le 1)).append (.single hlast))
  have htext := laidOut_of_layout? hg
  refine ⟨(lines catalog options.className program).map (padded options.indent), ?_⟩
  constructor
  case lines_eq =>
    rw [htext, List.flatMap_map]
    exact congrArg (List.flatMap · _) (funext (laidOut_eq options.indent))
  case unbroken =>
    intro line hline
    obtain ⟨l, hl, rfl⟩ := List.mem_map.1 hline
    exact hall.not_mem_padded options.indent l hl
  case nonneg =>
    intro cs hcs
    rw [htext] at hcs
    simpa using hall.floor_le_within (Nat.le_refl 0) hcs
  case outermost =>
    intro before after h
    obtain ⟨before, after, hsplit, rfl, rfl⟩ := List.map_eq_append_iff.1 h
    rw [hlines] at hsplit
    rw [outermost_of_nests hfirst hinner hlast options.indent hsplit, List.map_eq_nil_iff,
      List.map_eq_nil_iff]
  case blank =>
    intro i
    exact getElem?_lines_eq_nil_iff catalog options.className program options.indent i
  case indented =>
    intro before line after h
    exact indented_of_nests hall options.indent h
  case ended =>
    rw [htext, hlines, List.flatMap_cons, List.flatMap_append, List.flatMap_singleton,
      laidOut_eq _ ⟨0, "\x7d"⟩, ← List.append_assoc, ← List.append_assoc, List.getLast?_concat]

/-! The class of a source. -/

/-- All names of a program are words of its source. -/
theorem names_of_parse {source : String} {tokens : List Token} {tree : Block .parsed}
    (hlex : Lexer.lex source = ⟨tokens, none⟩) (hparse : parse source tokens = .ok tree) :
    ∀ s ∈ tree, (Node.stmt s).Names IsTidy := by
  obtain ⟨ps, hcut, -, htree⟩ := exists_cut_of_parse hlex hparse
  intro s hs x hx
  obtain ⟨before, mid, after, hmid, hat, -⟩ := htree.exists_at (hx.of_mem (List.mem_map_of_mem hs))
  have hmem : ⟨.name x.name, x.span⟩ ∈ ps.map Lexer.lexemeOf := by
    rw [hmid, show mid = _ from hat]
    simp
  obtain ⟨p, hp, hlexeme⟩ := List.mem_map.1 hmem
  have hisWord := hcut.isWord p hp
  have hword := Spelling.word_ofWord hisWord
  rw [show Spelling.ofWord p.word = .name x.name from congrArg Lexeme.spelling hlexeme] at hword
  rw [← hword] at hisWord
  exact isTidy_of_isWord hisWord

/-- A program that is not nested too deep for the indentation is written out. -/
theorem compile_of_typedTree {catalog : Catalog} {options : Options} {source : String}
    {program : Block .typed} (h : Compiler.typedTree catalog source = .ok program)
    (hwidth : options.indent * (1 + Stmt.depthAll program) ≤ Text.maxWidth) :
    ∃ text, Compiler.compile catalog options source = .ok text := by
  cases hg : generate? catalog options program with
  | none => exact absurd (maxWidth_lt_of_generate? hg) (Nat.not_lt.2 hwidth)
  | some text => exact ⟨text, Except.bind_eq_ok_iff.2 ⟨program, h, Result.ofOption_eq_ok_iff.2 hg⟩⟩

theorem wellLaidOut_of_text {catalog : Catalog} {options : Options} {source text : String}
    (hcatalog : HostNamed catalog) (hclass : Flat options.className.toList)
    (h : Compiler.compile catalog options source = .ok text) :
    ∃ lines, WellLaidOut options.indent text.toList lines := by
  obtain ⟨program, htyped, hg⟩ := Compiler.compile_eq_ok h
  obtain ⟨tree, htree, hprogram⟩ := Compiler.typedTree_eq_ok htyped
  obtain ⟨tokens, hlex, hparse⟩ := Compiler.tree_eq_ok htree
  have hrules := (Typing.block_gives_iff .root tree).1 ⟨Typing.block_of_program hprogram, rfl⟩
  have hnames := names_of_parse hlex hparse
  exact wellLaidOut_of_nests hclass (nests_block hcatalog hrules hnames 2 (Nat.le_refl 2)) hg

/-- Every source, if the name of the class and the names of the host have no braces and line breaks
in them, and the latter are not empty and have no spaces. A program that is not nested too deep for
the indentation is written out, and what is written out is well laid out. -/
theorem wellLaidOut_of_compile (catalog : Catalog) (options : Options) (source : String)
    (hcatalog : HostNamed catalog) (hclass : Flat options.className.toList) :
    (∀ program, Compiler.typedTree catalog source = .ok program →
      options.indent * (1 + Stmt.depthAll program) ≤ Text.maxWidth →
      ∃ text, Compiler.compile catalog options source = .ok text) ∧
    ∀ text, Compiler.compile catalog options source = .ok text →
      ∃ lines, WellLaidOut options.indent text.toList lines :=
  ⟨fun _ => compile_of_typedTree, fun _ => wellLaidOut_of_text hcatalog hclass⟩

theorem wellLaidOut_of_nested_branches :
    ∃ program text lines,
      Compiler.typedTree .standard
        "LET b: BOOLEAN; IF b THEN print(\"x\"); ELSE WHILE b DO END END" = .ok program ∧
      3 * (1 + Stmt.depthAll program) ≤ Text.maxWidth ∧
      Compiler.compile .standard ⟨"Main", 3⟩
        "LET b: BOOLEAN; IF b THEN print(\"x\"); ELSE WHILE b DO END END" = .ok text ∧
      WellLaidOut 3 text.toList lines := by
  have hstages : (match Compiler.typedTree .standard
      "LET b: BOOLEAN; IF b THEN print(\"x\"); ELSE WHILE b DO END END" with
    | .ok program => decide (3 * (1 + Stmt.depthAll program) ≤ Text.maxWidth)
    | .error _ => false) = true := by decide +kernel
  split at hstages
  · next program htyped =>
    have hwidth := of_decide_eq_true hstages
    have hlaidOut := wellLaidOut_of_compile .standard ⟨"Main", 3⟩
      "LET b: BOOLEAN; IF b THEN print(\"x\"); ELSE WHILE b DO END END" .standard (by decide)
    obtain ⟨text, hcompile⟩ := hlaidOut.1 program htyped hwidth
    obtain ⟨lines, hlines⟩ := hlaidOut.2 text hcompile
    exact ⟨program, text, lines, htyped, hwidth, hcompile, hlines⟩
  · cases hstages

end LetLang.Java
