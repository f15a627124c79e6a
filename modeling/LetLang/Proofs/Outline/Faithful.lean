import LetLang.Proofs.Java.Commands
import LetLang.Proofs.Outline.Plain

/-!
Outlines tell trees apart. A text that was laid out from plain lines is cut into these lines again,
at its line feeds and behind its indentation; the lines are the rows of a tree, and that is the tree
of the program up to the places that no line shows.
-/

namespace LetLang

open Outline (Head line)
open Text (Line)

/-! Lines from text. -/

/-- One line of text that starts with something to see. -/
structure Text.Line.Sharp (l : Line) : Prop where
  newline_not_mem : '\n' ∉ l.text.toList
  head_ne_space : ∀ c ∈ l.text.toList.head?, c ≠ ' '

namespace Text

variable {indent : Nat}

theorem laidOut_append_injective {l l' : Line} {rest rest' : List Char} (hindent : 0 < indent)
    (hl : l.Sharp) (hl' : l'.Sharp)
    (h : Java.laidOut indent l ++ rest = Java.laidOut indent l' ++ rest') :
    l = l' ∧ rest = rest' := by
  have hcut (l : Line) (rest : List Char) : Java.laidOut indent l ++ rest =
      (List.replicate (l.level * indent) ' ' ++ l.text.toList) ++ '\n' :: rest := by
    simp [Java.laidOut]
  have hend {l : Line} (hl : l.Sharp) :
      '\n' ∉ List.replicate (l.level * indent) ' ' ++ l.text.toList := by
    simp [hl.newline_not_mem]
  have hpad (n : Nat) : ∀ c ∈ List.replicate n ' ', decide (c = ' ') = true := by
    simp
  have hsharp {l : Line} (hl : l.Sharp) : ∀ c ∈ l.text.toList.head?, decide (c = ' ') = false := by
    simpa using hl.head_ne_space
  -- first the end of the line, then the end of the spaces in front of its text
  rw [hcut, hcut] at h
  obtain ⟨hline, hrest⟩ := append_cons_injective (hend hl) (hend hl') h
  obtain ⟨hlevel, htext⟩ := append_injective (hpad _) (hpad _) (hsharp hl) (hsharp hl') hline
  have hlevel : l.level = l'.level :=
    Nat.eq_of_mul_eq_mul_right hindent (by simpa using congrArg List.length hlevel)
  obtain ⟨level, text⟩ := l
  obtain ⟨level', text'⟩ := l'
  rw [String.toList_inj] at htext
  simp only at hlevel htext
  rw [hlevel, htext]
  exact ⟨rfl, hrest⟩

theorem flatMap_laidOut_injective {ls ls' : List Line} (hindent : 0 < indent) (hls : ∀ l ∈ ls, l.Sharp)
    (hls' : ∀ l ∈ ls', l.Sharp)
    (h : ls.flatMap (Java.laidOut indent) = ls'.flatMap (Java.laidOut indent)) : ls = ls' := by
  have hne (l : Line) (rest : List Char) : Java.laidOut indent l ++ rest ≠ [] := by
    simp [Java.laidOut]
  induction ls generalizing ls' with
  | nil =>
    cases ls' with
    | nil => rfl
    | cons l' ls' => exact absurd h.symm (hne l' _)
  | cons l ls ih =>
    cases ls' with
    | nil => exact absurd h (hne l _)
    | cons l' ls' =>
      rw [List.forall_mem_cons] at hls hls'
      rw [List.flatMap_cons, List.flatMap_cons] at h
      obtain ⟨rfl, hlater⟩ := laidOut_append_injective hindent hls.1 hls'.1 h
      rw [ih hls.2 hls'.2 hlater]

/-- A laid out text has one list of lines. -/
theorem layout?_injective {ls ls' : List Line} {text : String} (hindent : 0 < indent)
    (hls : ∀ l ∈ ls, l.Sharp) (hls' : ∀ l ∈ ls', l.Sharp) (h : layout? indent ls = some text)
    (h' : layout? indent ls' = some text) : ls = ls' := by
  apply flatMap_laidOut_injective hindent hls hls'
  rw [← Java.laidOut_of_layout? h, Java.laidOut_of_layout? h']

end Text

/-! Rows from lines. -/

namespace Outline

theorem sharp_line {row : Nat × Head} (h : row.2.Plain) : (line row).Sharp where
  newline_not_mem := Head.newline_not_mem_text h
  head_ne_space := row.2.head?_text_ne_space

theorem rows_injective {rows rows' : List (Nat × Head)} (hrows : ∀ row ∈ rows, row.2.Plain)
    (hrows' : ∀ row ∈ rows', row.2.Plain) (h : rows.map line = rows'.map line) : rows = rows' := by
  induction rows generalizing rows' with
  | nil =>
    cases rows' with
    | nil => rfl
    | cons row' rows' => cases h
  | cons row rows ih =>
    cases rows' with
    | nil => cases h
    | cons row' rows' =>
      rw [List.forall_mem_cons] at hrows hrows'
      simp only [List.map_cons, List.cons.injEq, line, Line.mk.injEq] at h
      obtain ⟨⟨hlevel, htext⟩, hlater⟩ := h
      rw [ih hrows.2 hrows'.2 hlater,
        Prod.ext hlevel (Head.text_injective hrows.1 hrows'.1 htext)]

end Outline

/-! Trees from rows. -/

theorem Stmt.PlainAll.sharp {p : Phase} {b : Block p} (h : PlainAll b) :
    ∀ l ∈ outlineAll 0 b, l.Sharp := by
  intro l hl
  rw [outlineAll_eq] at hl
  obtain ⟨row, hrow, rfl⟩ := List.mem_map.1 hl
  exact Outline.sharp_line (h.rows row hrow)

/-- Two trees with plain lines have the same outline if they differ in places that are not shown,
and only then. -/
theorem Block.outline?_iff_of_plain {p : Phase} {b b' : Block p} (hb : Stmt.PlainAll b)
    (hb' : Stmt.PlainAll b') {text : String} (h : b.outline? = some text) :
    b'.outline? = some text ↔ Stmt.unplacedAll b = Stmt.unplacedAll b' := by
  rw [← Stmt.roseAll_eq_iff]
  constructor
  · intro h'
    have hlines := Text.layout?_injective (by decide) hb.sharp hb'.sharp h h'
    rw [Stmt.outlineAll_eq, Stmt.outlineAll_eq] at hlines
    exact Rose.rowsAll_injective (Outline.rows_injective hb.rows hb'.rows hlines)
  · intro hrose
    rw [← h, Block.outline?, Block.outline?, Stmt.outlineAll_eq, Stmt.outlineAll_eq, hrose]

/-- Every two programs. Their trees have the same outline if and only if they are equal up to the
places of statements, of names and of the names of types, and so have the trees that typing gives
for them. -/
theorem outline?_iff_unplaced (source source' : String) (b b' : Block .parsed)
    (hb : parseProgram source = .ok b) (hb' : parseProgram source' = .ok b') :
    (∀ text, b.outline? = some text →
      (b'.outline? = some text ↔ Stmt.unplacedAll b = Stmt.unplacedAll b')) ∧
    ∀ scope scope' t t', (Typing.program .standard scope b).1 = .ok t →
      (Typing.program .standard scope' b').1 = .ok t' → ∀ text, t.outline? = some text →
        (t'.outline? = some text ↔ Stmt.unplacedAll t = Stmt.unplacedAll t') := by
  have hplain := plainAll_of_parseProgram hb
  have hplain' := plainAll_of_parseProgram hb'
  refine ⟨fun text => Block.outline?_iff_of_plain hplain hplain', ?_⟩
  intro scope scope' t t' ht ht' text
  exact Block.outline?_iff_of_plain (plainAll_of_program .standard hplain ht)
    (plainAll_of_program .standard hplain' ht')

/-- The same expressions at the same places, with a space in front of the semicolon. -/
theorem outline?_iff_unplaced_of_space :
    ∃ b b' t t', parseProgram "print(1);" = .ok b ∧ parseProgram "print(1) ;" = .ok b' ∧
      (Typing.program .standard .root b).1 = .ok t ∧
      (Typing.program .standard .root b').1 = .ok t' ∧
      b.outline? = some "expression\n  call print (0..8)\n    int 1 (6..7)\n" ∧
      b'.outline? = b.outline? ∧
      t.outline? = some ("expression\n  call print -> System.out.println (0..8 %: VOID)\n" ++
        "    int 1 (6..7 %: INTEGER)\n") ∧
      t'.outline? = t.outline? := by
  have hb : parseProgram "print(1);" = .ok
      [.expr (.call ⟨"print", ⟨0, 5⟩⟩ [.literal (.integer "1") ⟨6, 1⟩ ()] () ⟨0, 8⟩ ())
        ⟨0, 9⟩] := by
    with_unfolding_all rfl
  have hb' : parseProgram "print(1) ;" = .ok
      [.expr (.call ⟨"print", ⟨0, 5⟩⟩ [.literal (.integer "1") ⟨6, 1⟩ ()] () ⟨0, 8⟩ ())
        ⟨0, 10⟩] := by
    with_unfolding_all rfl
  have htyped (span : Span) : (Typing.program .standard .root
      [.expr (.call ⟨"print", ⟨0, 5⟩⟩ [.literal (.integer "1") ⟨6, 1⟩ ()] () ⟨0, 8⟩ ()) span]).1 = .ok
      [.expr (.call ⟨"print", ⟨0, 5⟩⟩
        [.literal (.integer ⟨1, by decide, by decide⟩) ⟨6, 1⟩ .integer] "System.out.println"
          ⟨0, 8⟩ .void) span] := by
    with_unfolding_all rfl
  obtain ⟨hparsed, hanalyzed⟩ := outline?_iff_unplaced _ _ _ _ hb hb'
  refine ⟨_, _, _, _, hb, hb', htyped _, htyped _, by decide +kernel, ?_, by decide +kernel, ?_⟩
  · exact (hparsed _ (by decide +kernel)).2 rfl
  · exact (hanalyzed _ _ _ _ (htyped _) (htyped _) _ (by decide +kernel)).2 rfl

end LetLang
