import LetLang.Proofs.Tree.Cursor.Credit
import LetLang.Proofs.Tree.Cursor.Deeper
import LetLang.Proofs.Tree.Cursor.Eof

/-!
Parsing makes progress. An expression or a statement leaves a token behind or fails, so each turn of
a loop comes nearer to the first `eof`, and nothing is parsed for ever. In all there are at most seven
steps for each token and eight besides.
-/

namespace LetLang

open Parser (ParseResult Parsed)

namespace Tape

variable {tape : Tape}

mutual

theorem proceeds_expr (depth power i : Nat) (h : 3 * (tape.length - i) + 1 < depth) :
    tape.Proceeds i 3 (tape.expr depth power) (i + 1) 4 := by
  obtain ⟨depth, rfl⟩ := Nat.exists_eq_add_one_of_ne_zero (Nat.ne_zero_of_lt h)
  have hoperand : tape.Proceeds i 2 (tape.advance >>= fun t => tape.operand depth t) (i + 1) 6 := by
    refine .of_le fun hi => ?_
    rcases Nat.lt_or_eq_of_le hi with hlt | heq
    · refine .advance hlt ?_
      exact (proceeds_operand depth (i + 1) _ (by omega)).last (Nat.le_refl _) (by omega)
    · -- no operand starts with an `eof`
      refine .advance_end heq ?_
      obtain ⟨depth, rfl⟩ := Nat.exists_eq_add_one_of_ne_zero (n := depth) (by omega)
      rw [heq, tokenAt_length, operand]
      exact .tick .error
  rw [expr]
  refine .tick ?_
  rw [← bind_assoc]
  refine hoperand.bind fun lhs j _ hj _ => ?_
  exact (proceeds_operators depth power j lhs (by omega)).last hj (by omega)

theorem proceeds_operators (depth power i : Nat) (lhs : Expr .parsed)
    (h : 3 * (tape.length - i) < depth) :
    tape.Proceeds i 3 (tape.operators depth power lhs) i 1 := by
  obtain ⟨depth, rfl⟩ := Nat.exists_eq_add_one_of_ne_zero (Nat.ne_zero_of_lt h)
  refine .of_le fun hi => ?_
  rw [operators]
  refine .tick (.peek ?_)
  cases hop : operator? (tape.tokenAt i).kind with
  | none => exact .pure (Nat.le_refl _) (Nat.le_refl _)
  | some op =>
    by_cases hpower : op.leftPower < power
    · dsimp only
      rw [if_pos hpower]
      exact .pure (Nat.le_refl _) (Nat.le_refl _)
    · have hlt : i < tape.length := lt_length hi fun heof => by simp [heof, operator?] at hop
      dsimp only
      rw [if_neg hpower]
      -- the operator pays for what is on its right and for the next turn
      refine .advance hlt ?_
      refine (proceeds_expr depth op.rightPower (i + 1) (by omega)).bind fun rhs j _ hj _ => ?_
      refine .give fun span _ => ?_
      exact (proceeds_operators depth power j _ (by omega)).last (by omega) (by omega)

/-- Whatever token an operand starts with. -/
theorem proceeds_operand (depth i : Nat) (t : Token) (h : 3 * (tape.length - i) + 2 < depth) :
    tape.Proceeds i 4 (tape.operand depth t) i 2 := by
  obtain ⟨depth, rfl⟩ := Nat.exists_eq_add_one_of_ne_zero (Nat.ne_zero_of_lt h)
  rw [operand]
  refine .tick ?_
  cases t.kind with
  | identifier =>
    refine .give fun k? _ => ?_
    cases k? with
    | none =>
      dsimp only
      rw [identOf, bind_assoc]
      refine .give fun name _ => ?_
      rw [pure_bind]
      refine .take (fun hlt => ?_) ?_
      · refine (proceeds_arguments depth (i + 1) (by omega)).bind fun args j _ hj _ => ?_
        refine .consume (by simp) fun stop _ => .give fun span _ => ?_
        exact .pure (by omega) (by omega)
      · exact .pure (Nat.le_refl _) (by omega)
    | some k =>
      cases k with
      | TRUE => exact .pure (Nat.le_refl _) (by omega)
      | FALSE => exact .pure (Nat.le_refl _) (by omega)
      | _ => exact .error
  | integer => exact .give fun _ _ => .pure (Nat.le_refl _) (by omega)
  | decimal => exact .give fun _ _ => .pure (Nat.le_refl _) (by omega)
  | string => exact .give fun _ _ => .pure (Nat.le_refl _) (by omega)
  | mark m =>
    cases m with
    | opening =>
      refine (proceeds_expr depth 0 i (by omega)).bind fun inner j _ hj _ => ?_
      refine .of_le fun hle => .peek ?_
      by_cases hk : (tape.tokenAt j).kind = .mark .closing
      · rw [if_neg fun h => h hk]
        refine .advance (take?_mark hle hk).1 (.give fun span _ => ?_)
        exact .pure (by omega) (by omega)
      · rw [if_pos hk]
        exact .error
    | _ => exact .error
  | eof => exact .error

theorem proceeds_arguments (depth i : Nat) (h : 3 * (tape.length - i) + 3 < depth) :
    tape.Proceeds i 5 (tape.arguments depth) i 3 := by
  obtain ⟨depth, rfl⟩ := Nat.exists_eq_add_one_of_ne_zero (Nat.ne_zero_of_lt h)
  rw [arguments]
  refine .isNext ?_
  split
  · exact .pure (Nat.le_refl _) (by omega)
  · exact (proceeds_argumentsFrom depth i (by omega)).last (Nat.le_succ _) (by omega)

theorem proceeds_argumentsFrom (depth i : Nat) (h : 3 * (tape.length - i) + 2 < depth) :
    tape.Proceeds i 4 (tape.argumentsFrom depth) (i + 1) 3 := by
  obtain ⟨depth, rfl⟩ := Nat.exists_eq_add_one_of_ne_zero (Nat.ne_zero_of_lt h)
  rw [argumentsFrom]
  refine .tick ?_
  refine (proceeds_expr depth 0 i (by omega)).bind fun arg j _ hj _ => ?_
  refine .of_le fun hle => .peek ?_
  by_cases hcomma : (tape.tokenAt j).kind = .mark .comma
  · rw [if_pos hcomma]
    refine .advance (take?_mark hle hcomma).1 ?_
    refine (proceeds_argumentsFrom depth (j + 1) (by omega)).bind fun args k _ _ _ => ?_
    exact .pure (by omega) (by omega)
  · rw [if_neg hcomma]
    split
    · exact .pure hj (by omega)
    · exact .error

end

theorem proceeds_initializer (depth i : Nat) (h : 3 * (tape.length - i) < depth) :
    tape.Proceeds i 2 (tape.initializer depth) i 1 := by
  rw [initializer]
  refine .take (fun hlt => ?_) (.pure (Nat.le_refl _) (Nat.le_refl _))
  refine (proceeds_expr depth 0 (i + 1) (by omega)).bind fun e j _ hj _ => ?_
  exact .pure (by omega) (by omega)

theorem proceeds_declaration (depth i : Nat) (h : 3 * (tape.length - i) < depth) :
    tape.Proceeds i 4 (tape.declaration depth) (i + 1) 9 := by
  rw [declaration]
  refine .consumeKeyword fun start _ => ?_
  refine Proceeds.ident.bind fun name j _ _ _ => ?_
  refine .consume (by simp) fun _ _ => ?_
  refine Proceeds.ident.bind fun ty k _ _ _ => ?_
  refine (proceeds_initializer depth k (by omega)).bind fun initial l _ _ _ => ?_
  refine .consume (by simp) fun stop _ => ?_
  exact .give fun span _ => .pure (by omega) (by omega)

theorem proceeds_assignment (depth i : Nat) (h : 3 * (tape.length - i) < depth) :
    tape.Proceeds i 3 (tape.assignment depth) (i + 1) 9 := by
  rw [assignment]
  refine Proceeds.ident.bind fun target j _ _ _ => ?_
  refine .consume (by simp) fun _ _ => ?_
  refine (proceeds_expr depth 0 (j + 1) (by omega)).bind fun value k _ _ _ => ?_
  refine .consume (by simp) fun stop _ => ?_
  exact .give fun span _ => .pure (by omega) (by omega)

theorem proceeds_exprStmt (depth i : Nat) (h : 3 * (tape.length - i) + 1 < depth) :
    tape.Proceeds i 3 (tape.exprStmt depth) (i + 1) 9 := by
  rw [exprStmt]
  refine (proceeds_expr depth 0 i h).bind fun value j _ _ _ => ?_
  refine .consume (by simp) fun stop _ => ?_
  exact .give fun span _ => .pure (by omega) (by omega)

/-- The token behind an identifier is not behind the first `eof`. -/
theorem proceeds_startsAssignment {β : Type} {i credit goal left : Nat} {g : Bool → Walk β}
    (h : ∀ b, tape.Proceeds i credit (g b) goal left) :
    tape.Proceeds i (credit + 1) (tape.startsAssignment (tape.tokenAt i) >>= g) goal left := by
  refine .of_le fun hi => ?_
  rw [startsAssignment]
  by_cases hk : (tape.tokenAt i).kind = .identifier
  · rw [if_pos hk, bind_assoc]
    exact .look (lt_of_identifier hi hk) (h _)
  · rw [if_neg hk, pure_bind, Nat.add_comm]
    exact (h _).last (Nat.le_refl _) (Nat.le_add_left _ _)

mutual

theorem proceeds_stmt (depth i : Nat) (h : 3 * (tape.length - i) + 2 < depth) :
    tape.Proceeds i 6 (tape.stmt depth) (i + 1) 9 := by
  obtain ⟨depth, rfl⟩ := Nat.exists_eq_add_one_of_ne_zero (Nat.ne_zero_of_lt h)
  have hother : tape.Proceeds i 4
      (tape.startsAssignment (tape.tokenAt i) >>= fun assigns =>
        if assigns then tape.assignment depth else tape.exprStmt depth) (i + 1) 9 := by
    refine proceeds_startsAssignment fun assigns => ?_
    split
    · exact proceeds_assignment depth i (by omega)
    · exact proceeds_exprStmt depth i (by omega)
  rw [stmt]
  refine .tick (.peek (.give fun k? _ => ?_))
  cases k? with
  | none => exact hother
  | some k =>
    cases k with
    | LET => exact proceeds_declaration depth i (by omega)
    | IF => exact proceeds_branch depth i (by omega)
    | WHILE => exact proceeds_loop depth i (by omega)
    | _ => exact hother

theorem proceeds_branch (depth i : Nat) (h : 3 * (tape.length - i) + 1 < depth) :
    tape.Proceeds i 4 (tape.branch depth) (i + 1) 9 := by
  obtain ⟨depth, rfl⟩ := Nat.exists_eq_add_one_of_ne_zero (Nat.ne_zero_of_lt h)
  rw [branch]
  refine .consumeKeyword fun start _ => ?_
  refine (proceeds_expr depth 0 (i + 1) (by omega)).bind fun condition j _ _ _ => ?_
  refine .consumeKeyword fun _ _ => ?_
  refine (proceeds_block depth (j + 1) _ (by omega)).bind fun yes k _ _ _ => ?_
  refine (proceeds_otherwise depth k (by omega)).bind fun no l _ _ _ => ?_
  refine .consumeKeyword fun stop _ => ?_
  exact .give fun span _ => .pure (by omega) (by omega)

theorem proceeds_otherwise (depth i : Nat) (h : 3 * (tape.length - i) + 1 < depth) :
    tape.Proceeds i 3 (tape.otherwise depth) i 2 := by
  obtain ⟨depth, rfl⟩ := Nat.exists_eq_add_one_of_ne_zero (Nat.ne_zero_of_lt h)
  rw [otherwise]
  refine .takeKeyword (fun hlt => ?_) (.pure (Nat.le_refl _) (Nat.le_refl _))
  exact (proceeds_block depth (i + 1) _ (by omega)).last (Nat.le_succ _) (by omega)

theorem proceeds_loop (depth i : Nat) (h : 3 * (tape.length - i) + 1 < depth) :
    tape.Proceeds i 4 (tape.loop depth) (i + 1) 9 := by
  obtain ⟨depth, rfl⟩ := Nat.exists_eq_add_one_of_ne_zero (Nat.ne_zero_of_lt h)
  rw [loop]
  refine .consumeKeyword fun start _ => ?_
  refine (proceeds_expr depth 0 (i + 1) (by omega)).bind fun condition j _ _ _ => ?_
  refine .consumeKeyword fun _ _ => ?_
  refine (proceeds_block depth (j + 1) _ (by omega)).bind fun body k _ _ _ => ?_
  refine .consumeKeyword fun stop _ => ?_
  exact .give fun span _ => .pure (by omega) (by omega)

theorem proceeds_block (depth i : Nat) (stops : List Keyword)
    (h : 3 * (tape.length - i) + 3 < depth) :
    tape.Proceeds i 8 (tape.block depth stops) i 6 := by
  obtain ⟨depth, rfl⟩ := Nat.exists_eq_add_one_of_ne_zero (Nat.ne_zero_of_lt h)
  rw [block, endsBlock]
  refine .tick ?_
  rw [bind_assoc]
  refine .peek ?_
  rw [bind_assoc]
  refine .give fun k? _ => ?_
  rw [pure_bind]
  split
  · exact .pure (Nat.le_refl _) (Nat.le_refl _)
  · -- the statement has left a token behind, which pays for the next turn
    refine (proceeds_stmt depth i (by omega)).bind fun s j _ hj _ => ?_
    refine (proceeds_block depth j stops (by omega)).bind fun ss k _ _ _ => ?_
    exact .pure (by omega) (by omega)

end

theorem proceeds_statements (depth i : Nat) (h : 3 * (tape.length - i) + 3 < depth) :
    tape.Proceeds i 8 (tape.statements depth) i 6 := by
  induction depth generalizing i with
  | zero => exact absurd h (Nat.not_lt_zero _)
  | succ depth ih =>
    rw [statements]
    refine .tick (.isNext ?_)
    split
    · exact .pure (Nat.le_refl _) (Nat.le_refl _)
    · refine (proceeds_stmt depth i (by omega)).bind fun s j _ hj _ => ?_
      refine (ih j (by omega)).bind fun ss k _ _ _ => ?_
      exact .pure (by omega) (by omega)

theorem proceeds_program (depth i : Nat) (h : 3 * (tape.length - i) + 3 < depth) :
    tape.Proceeds i 8 (tape.program depth) i 6 := by
  rw [program]
  refine (proceeds_statements depth i h).bind fun ss j _ _ _ => ?_
  split
  · exact .give fun span _ => .error
  · exact .pure (by omega) (by omega)

variable (tape : Tape) {α : Type}

/-- A walk from a cursor has one outcome, whatever depth suffices for it. The cursor does not go back,
and neither it nor what is looked at comes behind the first `eof`; with a value it has left behind at
least the given number of tokens. It takes at most seven steps for each of them and eight besides. -/
structure Moves (c : Cursor) (w : Nat → Walk α) (least : Nat) (r : Result (Located ParseError) α)
    (c' : Cursor) : Prop where
  ends : ∀ depth, 3 * (tape.length - c.place) + 3 < depth → (w depth).run.run c = some (r, c')
  back : c.place ≤ c'.place
  place : c'.place ≤ tape.length
  furthest : c'.furthest ≤ tape.length
  forward : ∀ a, r = .ok a → c.place + least ≤ c'.place
  steps : c'.steps ≤ c.steps + 7 * (c'.place - c.place) + 8

variable {tape}

theorem Proceeds.moves {c : Cursor} {w : Nat → Walk α} {credit least left : Nat}
    (hdeep : ∀ depth, Deepens (w depth) (w (depth + 1))) (hc : tape.Holds c)
    (hcredit : credit ≤ 8)
    (h : ∀ depth, 3 * (tape.length - c.place) + 3 < depth →
      tape.Proceeds c.place credit (w depth) (c.place + least) left) :
    ∃ r c', tape.Moves c w least r c' := by
  obtain ⟨r, c', hrun, ⟨hc', hle, hsteps⟩, hok⟩ := h _ (Nat.lt_succ_self _) c hc rfl
  refine ⟨r, c', ?_, hle, hc'.place, hc'.furthest, fun a ha => (hok a ha).1, by omega⟩
  intro depth hdepth
  exact Deepens.of_le hdeep hdepth c _ hrun

/-- A walk that follows a reader comes to what the reader reads. -/
theorem Proceeds.moves_as {c : Cursor} {w : Nat → Walk α} {credit least left n : Nat}
    {read : ParseResult α n} (hdeep : ∀ depth, Deepens (w depth) (w (depth + 1)))
    (hc : tape.Holds c) (hcredit : credit ≤ 8)
    (h : ∀ depth, 3 * (tape.length - c.place) + 3 < depth →
      tape.Proceeds c.place credit (w depth) (c.place + least) left)
    (hfollows : ∀ depth, 3 * (tape.rest c.place).length + 3 < depth →
      tape.Follows c.place (w depth) read) :
    ∃ c', tape.Moves c w least (read.map Parsed.value) c' := by
  obtain ⟨r, c', hmoves⟩ := moves hdeep hc hcredit h
  obtain ⟨_, hrun, -⟩ := hfollows _ (Nat.lt_succ_self _) c hc rfl
  cases (hmoves.ends _ (by rw [length_rest]; exact Nat.lt_succ_self _)).symm.trans hrun
  exact ⟨c', hmoves⟩

variable (tape)

/-- What is parsed from a cursor on is what the readers read there, and it moves on. -/
structure Progresses (c : Cursor) : Prop where
  stmt : ∃ c', tape.Moves c tape.stmt 1
    ((Parser.stmt tape.reading.finish (tape.rest c.place)).map Parsed.value) c'
  expr : ∀ power, ∃ c', tape.Moves c (tape.expr · power) 1
    ((Parser.expr tape.reading.finish power (tape.rest c.place)).map Parsed.value) c'
  operators : ∀ power lhs, ∃ c', tape.Moves c (tape.operators · power lhs) 0
    ((Parser.operators tape.reading.finish power lhs (tape.rest c.place)).map Parsed.value) c'
  operand : ∀ t, ∃ r c', tape.Moves c (tape.operand · t) 0 r c'
  arguments : ∃ r c', tape.Moves c tape.arguments 0 r c'
  block : ∀ stops, ∃ c', tape.Moves c (tape.block · stops) 0
    ((Parser.block tape.reading.finish stops (tape.rest c.place)).map Parsed.value) c'
  statements : ∃ c', tape.Moves c tape.statements 0
    ((Parser.block tape.reading.finish [] (tape.rest c.place)).map Parsed.value) c'

variable {tape}

theorem Holds.progresses {c : Cursor} (hc : tape.Holds c) : tape.Progresses c where
  stmt := Proceeds.moves_as tape.deepens_stmt hc (by decide)
    (fun depth h => proceeds_stmt depth c.place (by omega))
    fun depth h => follows_stmt depth c.place (by omega)
  expr power := Proceeds.moves_as (tape.deepens_expr · power) hc (by decide)
    (fun depth h => proceeds_expr depth power c.place (by omega))
    fun depth h => follows_expr depth power c.place (by omega)
  operators power lhs := Proceeds.moves_as (tape.deepens_operators · power lhs) hc (by decide)
    (fun depth h => proceeds_operators depth power c.place lhs (by omega))
    fun depth h => follows_operators depth power c.place lhs (by omega)
  operand t := Proceeds.moves (tape.deepens_operand · t) hc (by decide)
    fun depth h => proceeds_operand depth c.place t (by omega)
  arguments := Proceeds.moves tape.deepens_arguments hc (by decide)
    fun depth h => proceeds_arguments depth c.place h
  block stops := Proceeds.moves_as (tape.deepens_block · stops) hc (by decide)
    (fun depth h => proceeds_block depth c.place stops h)
    fun depth h => follows_block depth c.place stops h
  statements := Proceeds.moves_as tape.deepens_statements hc (by decide)
    (fun depth h => proceeds_statements depth c.place h)
    fun depth h => follows_statements depth c.place h

theorem program_moves : ∃ r c', tape.Moves ⟨0, 0, 0⟩ tape.program 0 r c' :=
  Proceeds.moves tape.deepens_program ⟨Nat.zero_le _, Nat.zero_le _⟩ (Nat.le_refl _)
    fun depth h => proceeds_program depth 0 h

end Tape

/-- Every source and every list of tokens, in any order, with an `eof` or without, and whether they
fit the source or not: wherever the cursor may be, what is parsed there ends and moves on, and the
whole ends as the parser does, after a number of steps that is linear in that of the tokens. -/
theorem parse_progresses (source : String) (tokens : List Token) :
    let tape : Tape := ⟨source.toList, tokens⟩
    (∀ c, tape.Holds c → tape.Progresses c) ∧
      ∃ c, tape.Moves ⟨0, 0, 0⟩ tape.program 0 (parse source tokens) c ∧
        c.steps ≤ 7 * tokens.length + 8 := by
  intro tape
  refine ⟨fun c hc => hc.progresses, ?_⟩
  obtain ⟨r, c, hmoves⟩ := tape.program_moves
  obtain ⟨_, hrun, -⟩ := ends_of_parse source tokens _ (Nat.lt_succ_self _)
  have hr : r = parse source tokens := by
    cases (hmoves.ends _ (Nat.lt_succ_self _)).symm.trans hrun
    rfl
  refine ⟨c, hr ▸ hmoves, ?_⟩
  have hlength : tape.length ≤ tokens.length := List.findIdx_le_length
  have hplace := hmoves.place
  have hsteps := hmoves.steps
  dsimp only at hsteps
  omega

/-- A loop without an end and without an `eof`: there are no tokens left for its block. -/
theorem parse_progresses_of_loop :
    let tokens : List Token := [⟨.identifier, ⟨0, 5⟩⟩, ⟨.identifier, ⟨6, 1⟩⟩, ⟨.identifier, ⟨8, 2⟩⟩]
    let tape : Tape := ⟨"WHILE x DO".toList, tokens⟩
    tape.Holds ⟨3, 3, 0⟩ ∧ tape.Progresses ⟨3, 3, 0⟩ ∧
      ∃ c, tape.Moves ⟨0, 0, 0⟩ tape.program 0
          (.error (.error ⟨⟨10, 0⟩, .unexpected (.keyword .END) .eof⟩)) c ∧ c.steps ≤ 29 := by
  intro tokens tape
  have hholds : tape.Holds ⟨3, 3, 0⟩ := ⟨by decide, by decide⟩
  obtain ⟨hprogresses, hprogram⟩ := parse_progresses "WHILE x DO" tokens
  have hfails : (match parse "WHILE x DO" tokens with
      | .ok _ => none
      | .error f => some f) = some (.error ⟨⟨10, 0⟩, .unexpected (.keyword .END) .eof⟩) := by
    decide +kernel
  refine ⟨hholds, hprogresses _ hholds, ?_⟩
  cases hparse : parse "WHILE x DO" tokens with
  | ok tree =>
    rw [hparse] at hfails
    cases hfails
  | error f =>
    rw [hparse] at hfails hprogram
    cases hfails
    exact hprogram

end LetLang
