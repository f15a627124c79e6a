import LetLang.Proofs.Tree.Cursor.Expressions
import LetLang.Proofs.Tree.Parsing

/-!
Statements with a cursor. A statement is announced by its first token or by the one behind it, and a
block ends at a keyword or at the end; the cursor finds there what the readers find.
-/

namespace LetLang

open Parser (ParseResult Parsed)

namespace Tape

variable {tape : Tape} {β : Type} {n : Nat}

theorem follows_initializer (depth i : Nat) (h : 3 * (tape.rest i).length < depth) :
    tape.Follows i (tape.initializer depth)
      (Parser.initializer tape.reading.finish (tape.rest i)) := by
  refine .of_le fun hi => ?_
  rw [initializer, Parser.initializer]
  refine .take (fun hlt hk => ?_) fun hk => ?_
  · obtain ⟨-, hshort, htake⟩ := take?_mark hi hk
    rw [htake]
    exact (follows_expr depth 0 (i + 1) (by omega)).bind fun e j _ _ _ => .pure
  · rw [take?_mark_other hi hk]
    exact .pure

theorem Follows.consumeKeyword {i : Nat} {k : Keyword} {f : Token → Walk β} {r : ParseResult β n}
    (hi : i < tape.length) (hs : (tape.tokenAt i).spelling tape.source = .keyword k)
    (h : tape.Follows (i + 1) (f (tape.tokenAt i)) r) :
    tape.Follows i (tape.consumeKeyword k >>= f) r := by
  have hread : ((tape.tokenAt i).keyword? tape.source : Result (Located ParseError) _) =
      .ok (some k) := by
    rcases Token.keyword?_cases tape.source (tape.tokenAt i) with
      ⟨-, hs'⟩ | ⟨k', hread, hs'⟩ | ⟨-, -, hs'⟩
    · cases hs.symm.trans hs'
    · cases hs.symm.trans hs'
      exact hread
    · exact absurd hs (hs' k)
  rw [Tape.consumeKeyword, bind_assoc]
  refine peek ?_
  rw [keyword?, hread, give_ok, pure_bind, if_pos rfl, bind_assoc]
  exact advance hi h

theorem follows_declaration (depth i : Nat) (hi : i < tape.length)
    (hs : (tape.tokenAt i).spelling tape.source = .keyword .LET)
    (h : 3 * (tape.rest i).length < depth) :
    tape.Follows i (tape.declaration depth)
      (Parser.declaration tape.reading.finish (tape.tokenAt i).span (tape.rest (i + 1))) := by
  rw [(rest_cons hi).1, List.length_cons] at h
  rw [declaration, Parser.declaration]
  refine .consumeKeyword hi hs ?_
  refine Follows.ident.bind fun name j _ _ _ => ?_
  refine .mark fun _ _ => ?_
  refine Follows.ident.bind fun ty k _ _ _ => ?_
  refine (follows_initializer depth k (by omega)).bind fun initial l _ _ _ => ?_
  refine .mark fun stop _ => ?_
  exact .give fun span _ => .pure

theorem follows_assignment (depth i : Nat) (h : 3 * (tape.rest i).length < depth) :
    tape.Follows i (tape.assignment depth)
      (Parser.assignment tape.reading.finish (tape.rest i)) := by
  rw [assignment, Parser.assignment]
  refine Follows.ident.bind fun name j _ _ _ => ?_
  refine .mark fun _ _ => ?_
  refine (follows_expr depth 0 (j + 1) (by omega)).bind fun value k _ _ _ => ?_
  refine .mark fun stop _ => ?_
  exact .give fun span _ => .pure

theorem follows_exprStmt (depth i : Nat) (h : 3 * (tape.rest i).length + 1 < depth) :
    tape.Follows i (tape.exprStmt depth)
      (Parser.exprStmt tape.reading.finish (tape.rest i)) := by
  rw [exprStmt, Parser.exprStmt]
  refine (follows_expr depth 0 i h).bind fun value j _ _ _ => ?_
  refine .mark fun stop _ => ?_
  exact .give fun span _ => .pure

theorem startsAssignment_rest {i : Nat} (hi : i ≤ tape.length) :
    Parser.startsAssignment (tape.rest i) =
      (decide ((tape.tokenAt i).kind = .identifier) &&
        decide ((tape.tokenAt (i + 1)).kind = .mark .assign)) := by
  rcases Nat.lt_or_eq_of_le hi with hlt | rfl
  · rw [(rest_cons hlt).1]
    rcases Nat.lt_or_eq_of_le hlt with hlt' | heq
    · rw [(rest_cons hlt').1, Parser.startsAssignment, Token.lexeme, Token.lexeme,
        Token.kind_spelling, Token.kind_spelling]
    · have heof : (tape.tokenAt (i + 1)).kind = .eof := by
        rw [show i + 1 = tape.length from heq, tokenAt_length]
      rw [show i + 1 = tape.length from heq, rest_length, ← heq, heof]
      simp [Parser.startsAssignment]
  · rw [rest_length, tokenAt_length]
    simp [Parser.startsAssignment]

/-- Whether a block ends here, once its token can be read. -/
theorem endsBlock_rest {i : Nat} {stops : List Keyword} {k? : Option Keyword}
    (hi : i ≤ tape.length)
    (hread : ((tape.tokenAt i).keyword? tape.source : Result (Located ParseError) _) = .ok k?) :
    ((tape.rest i).isEmpty || Parser.startsWithAny stops (tape.rest i)) =
      (k?.any stops.contains || (tape.tokenAt i).isEof) := by
  rcases Nat.lt_or_eq_of_le hi with hlt | rfl
  · rw [(rest_cons hlt).1, isEof_tokenAt hlt, Token.lexeme, List.isEmpty_cons, Bool.false_or, Bool.or_false]
    rcases Token.keyword?_cases tape.source (tape.tokenAt i) with
      ⟨hread', -⟩ | ⟨k, hread', hs⟩ | ⟨hread', -, hs⟩
    · cases hread'.symm.trans hread
    · cases hread'.symm.trans hread
      rw [hs]
      rfl
    · cases hread'.symm.trans hread
      generalize (tape.tokenAt i).spelling tape.source = s at hs ⊢
      cases s with
      | keyword k => exact absurd rfl (hs k)
      | _ => rfl
  · rw [tokenAt_length] at hread ⊢
    rw [rest_length]
    cases hread
    rfl

/-- No keyword is found where there is an identifier that cannot be read. -/
theorem keyword_rest_unreadable {i : Nat} {k : Keyword} (hi : i < tape.length)
    (hs : (tape.tokenAt i).spelling tape.source = .unreadable .identifier) :
    Parser.keyword tape.reading.finish k (tape.rest i) = .error .abort := by
  obtain ⟨_, htake⟩ := take?_rest hi hs
  rw [Parser.keyword, take?_rest_other (Nat.le_of_lt hi) (by simp [hs]), htake]
  rfl

/-- What follows when no keyword announces a statement. -/
theorem follows_stmt_other (depth i : Nat) (hi : i ≤ tape.length)
    (hk : ∀ k ∈ [Keyword.LET, .IF, .WHILE], (tape.tokenAt i).spelling tape.source ≠ .keyword k)
    (hu : (tape.tokenAt i).spelling tape.source ≠ .unreadable .identifier)
    (h : 3 * (tape.rest i).length + 1 < depth) :
    tape.Follows i
      (tape.startsAssignment (tape.tokenAt i) >>= fun b =>
        if b = true then tape.assignment depth else tape.exprStmt depth)
      (Parser.stmt tape.reading.finish (tape.rest i)) := by
  have hhead : ∀ s : Spelling, (tape.tokenAt i).spelling tape.source ≠ s →
      ∀ span after, tape.rest i ≠ ⟨s, span⟩ :: after := fun s hs =>
    Parser.take?_eq_none_iff.1 (take?_rest_other hi hs)
  rw [Parser.stmt, startsAssignment_rest hi, startsAssignment]
  · have hassignment := @follows_assignment tape depth i (by omega)
    have hexprStmt := @follows_exprStmt tape depth i h
    by_cases hkind : (tape.tokenAt i).kind = .identifier
    · have hlt : i < tape.length := lt_of_identifier hi hkind
      rw [if_pos hkind, bind_assoc]
      refine .peek_next hlt ?_
      rw [pure_bind, decide_eq_true hkind, Bool.true_and]
      split
      · exact hassignment
      · exact hexprStmt
    · rw [if_neg hkind, decide_eq_false hkind, Bool.false_and]
      exact hexprStmt
  · exact hhead _ (hk .LET (by simp))
  · exact hhead _ (hk .IF (by simp))
  · exact hhead _ (hk .WHILE (by simp))
  · exact hhead _ hu

mutual

theorem follows_stmt (depth i : Nat) (h : 3 * (tape.rest i).length + 2 < depth) :
    tape.Follows i (tape.stmt depth) (Parser.stmt tape.reading.finish (tape.rest i)) := by
  obtain ⟨depth, rfl⟩ := Nat.exists_eq_add_one_of_ne_zero (Nat.ne_zero_of_lt h)
  refine .of_le fun hi => ?_
  rw [stmt]
  refine .tick (.peek ?_)
  rw [keyword?]
  rcases Token.keyword?_cases tape.source (tape.tokenAt i) with
    ⟨hread, hs⟩ | ⟨k, hread, hs⟩ | ⟨hread, hunreadable, hs⟩
  · have hlt := lt_of_identifier hi (Token.kind_of_spelling hs)
    rw [hread, (rest_cons hlt).1, Token.lexeme, hs, Parser.stmt]
    exact .error
  · have hlt := lt_of_identifier hi (Token.kind_of_spelling hs)
    rw [hread, give_ok, pure_bind]
    have hother : (∀ k' ∈ [Keyword.LET, .IF, .WHILE], k' ≠ k) → _ := fun hne =>
      follows_stmt_other depth i hi (fun k' hk' => by simpa [hs] using (hne k' hk').symm)
        (by simp [hs]) (by omega)
    cases k with
    | LET =>
      rw [(rest_cons hlt).1, Token.lexeme, hs, Parser.stmt]
      exact (follows_declaration depth i hlt hs (by omega)).relaxed
    | IF => exact follows_branch depth i hlt hs (by omega)
    | WHILE => exact follows_loop depth i hlt hs (by omega)
    | _ => exact hother (by decide)
  · rw [hread, give_ok, pure_bind]
    exact follows_stmt_other depth i hi (fun k _ => hs k) hunreadable (by omega)

theorem follows_branch (depth i : Nat) (hi : i < tape.length)
    (hs : (tape.tokenAt i).spelling tape.source = .keyword .IF)
    (h : 3 * (tape.rest i).length + 1 < depth) :
    tape.Follows i (tape.branch depth) (Parser.stmt tape.reading.finish (tape.rest i)) := by
  obtain ⟨depth, rfl⟩ := Nat.exists_eq_add_one_of_ne_zero (Nat.ne_zero_of_lt h)
  have hcons := (rest_cons hi).1
  rw [Token.lexeme, hs] at hcons
  rw [hcons, List.length_cons] at h
  rw [branch, hcons, Parser.stmt]
  refine .consumeKeyword hi hs ?_
  refine (follows_expr depth 0 (i + 1) (by omega)).bind fun condition j _ _ _ => ?_
  refine .keyword fun _ _ => ?_
  refine (follows_block depth (j + 1) [.ELSE, .END] (by omega)).bind fun yes k _ _ _ => ?_
  refine follows_otherwise depth k (by omega) fun no l stop _ _ => ?_
  exact .give fun span _ => .pure

theorem follows_loop (depth i : Nat) (hi : i < tape.length)
    (hs : (tape.tokenAt i).spelling tape.source = .keyword .WHILE)
    (h : 3 * (tape.rest i).length + 1 < depth) :
    tape.Follows i (tape.loop depth) (Parser.stmt tape.reading.finish (tape.rest i)) := by
  obtain ⟨depth, rfl⟩ := Nat.exists_eq_add_one_of_ne_zero (Nat.ne_zero_of_lt h)
  have hcons := (rest_cons hi).1
  rw [Token.lexeme, hs] at hcons
  rw [hcons, List.length_cons] at h
  rw [loop, hcons, Parser.stmt]
  refine .consumeKeyword hi hs ?_
  refine (follows_expr depth 0 (i + 1) (by omega)).bind fun condition j _ _ _ => ?_
  refine .keyword fun _ _ => ?_
  refine (follows_block depth (j + 1) [.END] (by omega)).bind fun body k _ _ _ => ?_
  refine .keyword fun stop _ => ?_
  exact .give fun span _ => .pure

/-- The second arm is read together with the keyword behind it: a token that cannot be read fails
there in any case. -/
theorem follows_otherwise {β : Type} {n : Nat} (depth i : Nat)
    (h : 3 * (tape.rest i).length + 1 < depth) {f : Block .parsed → Token → Walk β}
    {g : (p : Parsed (Block .parsed) ((tape.rest i).length + 1)) → Parsed Span p.rest.length →
      ParseResult β n}
    (hf : ∀ no j stop hj hlt, tape.Follows (j + 1) (f no stop)
      (g ⟨no, tape.rest j, hj⟩ ⟨stop.span, tape.rest (j + 1), hlt⟩)) :
    tape.Follows i
      (tape.otherwise depth >>= fun no => tape.consumeKeyword .END >>= fun stop => f no stop)
      (Parser.otherwise tape.reading.finish (tape.rest i) >>= fun p =>
        Parser.keyword tape.reading.finish .END p.rest >>= fun q => g p q) := by
  obtain ⟨depth, rfl⟩ := Nat.exists_eq_add_one_of_ne_zero (Nat.ne_zero_of_lt h)
  refine .of_le fun hi => ?_
  rw [otherwise, takeKeyword, bind_assoc, bind_assoc, Parser.otherwise]
  refine .peek ?_
  rw [keyword?]
  -- without the keyword, there are no statements in front of the last one
  have hnone : tape.Follows i (tape.consumeKeyword .END >>= fun stop => f [] stop)
      (Parser.keyword tape.reading.finish .END (tape.rest i) >>= fun q =>
        g ⟨[], tape.rest i, Nat.lt_succ_self _⟩ q) := .keyword fun stop hlt => hf _ _ _ _ hlt
  rcases Token.keyword?_cases tape.source (tape.tokenAt i) with
    ⟨hread, hs⟩ | ⟨k, hread, hs⟩ | ⟨hread, hunreadable, hs⟩
  · have hlt := lt_of_identifier hi (Token.kind_of_spelling hs)
    rw [hread, take?_rest_other hi (by simp [hs])]
    change tape.Follows i (give (.error .abort)) (Parser.keyword _ _ _ >>= _)
    rw [keyword_rest_unreadable hlt hs]
    exact .error
  · have hlt := lt_of_identifier hi (Token.kind_of_spelling hs)
    by_cases heq : k = .ELSE
    · obtain ⟨hshort, htake⟩ := take?_rest hlt (heq ▸ hs)
      rw [hread, htake, give_ok, pure_bind, if_pos (congrArg some heq), bind_assoc]
      refine .advance hlt ?_
      rw [pure_bind, if_pos rfl]
      refine (follows_block depth (i + 1) [.END] (by omega)).relaxed.bind fun no j _ _ _ => ?_
      exact .keyword fun stop hlt => hf _ _ _ _ hlt
    · rw [hread, give_ok, pure_bind, if_neg (mt Option.some.inj heq), pure_bind,
        take?_rest_other hi (by rw [hs]; simpa using heq), if_neg Bool.false_ne_true, pure_bind]
      exact hnone
  · rw [hread, give_ok, pure_bind, if_neg (by simp), pure_bind, take?_rest_other hi (hs _),
      if_neg Bool.false_ne_true, pure_bind]
    exact hnone

theorem follows_block (depth i : Nat) (stops : List Keyword)
    (h : 3 * (tape.rest i).length + 3 < depth) :
    tape.Follows i (tape.block depth stops)
      (Parser.block tape.reading.finish stops (tape.rest i)) := by
  obtain ⟨depth, rfl⟩ := Nat.exists_eq_add_one_of_ne_zero (Nat.ne_zero_of_lt h)
  refine .of_le fun hi => ?_
  have hmore : ∀ hn : ∀ (p : Parsed _ (tape.rest i).length) (q : Parsed _ (p.rest.length + 1)),
      q.rest.length < (tape.rest i).length + 1,
      tape.Follows i
        (tape.stmt depth >>= fun s => tape.block depth stops >>= fun ss => pure (s :: ss))
        (Parser.stmt tape.reading.finish (tape.rest i) >>= fun p =>
          Parser.block tape.reading.finish stops p.rest >>= fun q =>
            (.ok ⟨p.value :: q.value, q.rest, hn p q⟩ : ParseResult _ _)) := by
    intro hn
    refine (follows_stmt depth i (by omega)).bind fun s j _ _ _ => ?_
    exact (follows_block depth j stops (by omega)).bind fun ss k _ _ _ => .pure
  rw [block, endsBlock, bind_assoc, Parser.block]
  refine .tick (.peek ?_)
  rw [keyword?]
  rcases Token.keyword?_cases tape.source (tape.tokenAt i) with
    ⟨hread, hs⟩ | ⟨k, hread, -⟩ | ⟨hread, -, -⟩
  · have hlt := lt_of_identifier hi (Token.kind_of_spelling hs)
    rw [hread, (rest_cons hlt).1, Token.lexeme, hs, Parser.stmt]
    exact .error
  all_goals
    rw [hread, give_ok, pure_bind, pure_bind, endsBlock_rest hi hread]
    split
    · exact .pure
    · exact hmore _

end

end Tape

end LetLang
