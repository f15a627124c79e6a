import LetLang.Java
import LetLang.Proofs.Typing.Judgements

/-!
How far lines are indented. The deepest line of a program stands one level deeper than its
statements are nested, so a program is laid out if and only if that line can be padded. Typing
keeps how deep the statements of a program are nested.
-/

namespace LetLang

namespace Stmt

variable {p : Phase}

mutual

/-- The number of statements inside each other, from this one on. -/
def depth : Stmt p → Nat
  | expr _ _ => 1
  | declaration _ _ _ _ => 1
  | assignment _ _ _ => 1
  | branch _ yes no _ => 1 + max (depthAll yes) (depthAll no)
  | loop _ body _ => 1 + depthAll body

def depthAll : Block p → Nat
  | [] => 0
  | s :: ss => max s.depth (depthAll ss)

end

theorem depth_pos (s : Stmt p) : 0 < s.depth := by
  cases s <;> simp only [depth] <;> omega

theorem depthAll_pos {ss : Block p} (h : ss ≠ []) : 0 < depthAll ss := by
  cases ss with
  | nil => exact absurd rfl h
  | cons s ss => exact Nat.lt_of_lt_of_le s.depth_pos (Nat.le_max_left ..)

end Stmt

namespace Text

theorem Line.render?_eq_none_iff {indent : Nat} {l : Line} :
    l.render? indent = none ↔ maxWidth < l.level * indent := by
  simp [render?, padding?]

/-- Lines are laid out if each of them can be padded. -/
theorem layout?_eq_none_iff {indent : Nat} {lines : List Line} :
    layout? indent lines = none ↔ ∃ l ∈ lines, maxWidth < l.level * indent := by
  simp only [layout?, Option.map_eq_none_iff, ← Line.render?_eq_none_iff]
  induction lines with
  | nil => simp
  | cons l ls ih =>
    simp only [List.mapM_cons, List.mem_cons, exists_eq_or_imp]
    rw [← ih]
    cases l.render? indent <;> cases ls.mapM (Line.render? indent) <;> simp

end Text

namespace Java

open Text (Line)

variable {catalog : Catalog}

mutual

theorem level_lt_of_stmt {level : Nat} :
    (s : Stmt .typed) → ∀ l ∈ stmt catalog level s, l.level < level + s.depth
  | .expr _ _ => by simp [stmt, Stmt.depth]
  | .declaration _ _ none _ => by simp [stmt, Stmt.depth]
  | .declaration _ _ (some _) _ => by simp [stmt, Stmt.depth]
  | .assignment _ _ _ => by simp [stmt, Stmt.depth]
  | .branch _ yes no _ => by
    intro l hl
    simp only [stmt, List.mem_cons, List.mem_append, List.not_mem_nil, or_false] at hl
    simp only [Stmt.depth]
    rcases hl with rfl | (hl | hl) | rfl
    · simp only
      omega
    · have := level_lt_of_block yes l hl
      omega
    · split at hl
      · cases hl
      · rcases List.mem_cons.1 hl with rfl | hl
        · simp only
          omega
        · have := level_lt_of_block no l hl
          omega
    · simp only
      omega
  | .loop _ body _ => by
    intro l hl
    simp only [stmt, List.mem_cons, List.mem_append, List.not_mem_nil, or_false] at hl
    simp only [Stmt.depth]
    rcases hl with rfl | hl | rfl
    · simp only
      omega
    · have := level_lt_of_block body l hl
      omega
    · simp only
      omega

theorem level_lt_of_block {level : Nat} :
    (ss : Block .typed) → ∀ l ∈ block catalog level ss, l.level < level + Stmt.depthAll ss
  | [] => by simp [block]
  | s :: ss => by
    intro l hl
    simp only [block, List.mem_append] at hl
    simp only [Stmt.depthAll]
    rcases hl with hl | hl
    · have := level_lt_of_stmt s l hl
      omega
    · have := level_lt_of_block ss l hl
      omega

end

mutual

theorem exists_level_of_stmt (level : Nat) :
    (s : Stmt .typed) → ∃ l ∈ stmt catalog level s, l.level + 1 = level + s.depth
  | .expr _ _ => by simp [stmt, Stmt.depth]
  | .declaration _ _ none _ => by simp [stmt, Stmt.depth]
  | .declaration _ _ (some _) _ => by simp [stmt, Stmt.depth]
  | .assignment _ _ _ => by simp [stmt, Stmt.depth]
  | .branch _ yes no _ => by
    simp only [stmt, Stmt.depth]
    -- the deeper arm has the line, and it is not empty unless both are
    by_cases hle : Stmt.depthAll no ≤ Stmt.depthAll yes
    · by_cases hyes : yes = []
      · subst hyes
        have hno : Stmt.depthAll no = 0 := Nat.le_zero.1 hle
        exact ⟨_, List.mem_cons_self .., by simp [Stmt.depthAll, hno]⟩
      · obtain ⟨l, hl, heq⟩ := exists_level_of_block (level + 1) yes hyes
        exact ⟨l, by simp [hl], by omega⟩
    · have hno : no ≠ [] := by
        rintro rfl
        exact hle (Nat.zero_le _)
      obtain ⟨l, hl, heq⟩ := exists_level_of_block (level + 1) no hno
      exact ⟨l, by simp [hno, hl], by omega⟩
  | .loop _ body _ => by
    simp only [stmt, Stmt.depth]
    by_cases hbody : body = []
    · subst hbody
      exact ⟨_, List.mem_cons_self .., by simp [Stmt.depthAll]⟩
    · obtain ⟨l, hl, heq⟩ := exists_level_of_block (level + 1) body hbody
      exact ⟨l, by simp [hl], by omega⟩

theorem exists_level_of_block (level : Nat) :
    (ss : Block .typed) → ss ≠ [] →
      ∃ l ∈ block catalog level ss, l.level + 1 = level + Stmt.depthAll ss
  | [], h => absurd rfl h
  | s :: ss, _ => by
    simp only [block, Stmt.depthAll]
    by_cases hle : Stmt.depthAll ss ≤ s.depth
    · obtain ⟨l, hl, heq⟩ := exists_level_of_stmt level s
      exact ⟨l, by simp [hl], by omega⟩
    · have hss : ss ≠ [] := by
        rintro rfl
        exact hle (Nat.zero_le _)
      obtain ⟨l, hl, heq⟩ := exists_level_of_block level ss hss
      exact ⟨l, by simp [hl], by omega⟩

end

/-- No line is deeper than the statements, which start at the second level. -/
theorem maxWidth_lt_of_generate? {options : Options} {program : Block .typed}
    (h : generate? catalog options program = none) :
    Text.maxWidth < options.indent * (1 + Stmt.depthAll program) := by
  rw [generate?, Text.layout?_eq_none_iff] at h
  obtain ⟨l, hl, hwidth⟩ := h
  have hlevel : l.level ≤ 1 + Stmt.depthAll program := by
    simp only [lines, List.mem_append, List.mem_cons, List.not_mem_nil, or_false] at hl
    rcases hl with ((rfl | rfl | rfl) | hl) | rfl | rfl | rfl
    case inl.inr =>
      have := level_lt_of_block program l hl
      omega
    all_goals simp only [Line.blank]; omega
  rw [Nat.mul_comm] at hwidth
  exact Nat.lt_of_lt_of_le hwidth (Nat.mul_le_mul_left _ hlevel)

/-- A program is too deep if its deepest line is. -/
theorem generate?_eq_none_iff {options : Options} {program : Block .typed} (h : program ≠ []) :
    generate? catalog options program = none ↔
      Text.maxWidth < options.indent * (1 + Stmt.depthAll program) := by
  refine ⟨maxWidth_lt_of_generate?, fun hwidth => ?_⟩
  rw [generate?, Text.layout?_eq_none_iff]
  obtain ⟨l, hl, heq⟩ : ∃ l ∈ block catalog 2 program, l.level + 1 = 2 + Stmt.depthAll program :=
    exists_level_of_block 2 program h
  refine ⟨l, by simp [lines, hl], ?_⟩
  rw [Nat.mul_comm, show l.level = 1 + Stmt.depthAll program by omega]
  exact hwidth

end Java

namespace Typing

variable {catalog : Catalog}

mutual

theorem depth_of_stmt {scope : Scope} {s : Stmt .parsed} {s' : Stmt .typed}
    (h : (stmt catalog scope s).1 = .ok s') : s'.depth = s.depth := by
  match s with
  | .expr e span =>
    simp only [stmt] at h
    split at h
    · obtain ⟨_, -, rfl⟩ := Except.map_eq_ok_iff.1 h
      rfl
    · cases h
  | .declaration name ty initial span =>
    simp only [stmt, declaration] at h
    split at h
    · cases h
    · dsimp only at h
      split at h <;> cases h
      rfl
  | .assignment target e span =>
    simp only [stmt] at h
    split at h
    · cases h
    · obtain ⟨_, -, rfl⟩ := Except.map_eq_ok_iff.1 h
      rfl
  | .branch test yes no span =>
    simp only [stmt] at h
    obtain ⟨_, -, h⟩ := Except.bind_eq_ok_iff.1 h
    split at h
    · cases h
    obtain ⟨yes', hyes, h⟩ := Except.bind_eq_ok_iff.1 h
    obtain ⟨no', hno, h⟩ := Except.bind_eq_ok_iff.1 h
    cases h
    simp only [Stmt.depth, depthAll_of_block hyes, depthAll_of_block hno]
  | .loop test body span =>
    simp only [stmt] at h
    obtain ⟨_, -, h⟩ := Except.bind_eq_ok_iff.1 h
    obtain ⟨body', hbody, h⟩ := Except.bind_eq_ok_iff.1 h
    cases h
    simp only [Stmt.depth, depthAll_of_block hbody]

theorem depthAll_of_block {scope : Scope} {ss : Block .parsed} {ss' : Block .typed}
    (h : (block catalog scope ss).1 = .ok ss') : Stmt.depthAll ss' = Stmt.depthAll ss := by
  match ss with
  | [] =>
    simp only [block] at h
    cases h
    rfl
  | s :: ss =>
    simp only [block] at h
    split at h
    · cases h
    · next s' scope' hs =>
      split at h
      · cases h
      · next ss'' scope'' hss =>
        cases h
        have hs : s'.depth = s.depth := depth_of_stmt (by rw [hs])
        have hss : Stmt.depthAll ss'' = Stmt.depthAll ss := depthAll_of_block (by rw [hss])
        simp only [Stmt.depthAll, hs, hss]

end

end Typing

end LetLang
