import LetLang.Proofs.Tree.Sound

/-!
What is derived is read, at its places. A derivation of layer `n` is read as an operand so far, with
the operators of `n` and tighter ones used up; the loop then goes on as if it had started with that
operand. What stands after an expression must neither prolong it nor open the arguments of a call.
-/

namespace LetLang

namespace Parser

variable {finish : Span}

/-- Nothing after an expression of layer `n` goes on with it. -/
structure Closed (n : Nat) (rest : List Lexeme) : Prop where
  stops : Stops (2 * n) rest
  opening : take? (.mark .opening) rest = none

theorem Closed.mono {n k : Nat} {rest : List Lexeme} (h : Closed n rest) (hn : n ≤ k) :
    Closed k rest where
  stops t after op hcons hop := Nat.lt_of_lt_of_le (h.stops t after op hcons hop) (by omega)
  opening := h.opening

theorem closed_of_head {n : Nat} {s : Spelling} {span : Span} {rest : List Lexeme}
    (hop : operator? s = none) (ho : s ≠ .mark .opening) : Closed n (⟨s, span⟩ :: rest) where
  stops t after op hcons hop' := by
    cases hcons
    rw [hop] at hop'
    cases hop'
  opening := by simp [take?, ho]

theorem closed_of_closing {n : Nat} {span : Span} {rest : List Lexeme} :
    Closed n (⟨.mark .closing, span⟩ :: rest) := closed_of_head rfl (by decide)

theorem closed_of_comma {n : Nat} {span : Span} {rest : List Lexeme} :
    Closed n (⟨.mark .comma, span⟩ :: rest) := closed_of_head rfl (by decide)

/-- An operator closes the operand before it, unless it holds it tighter. -/
theorem closed_of_operator {op : Operator} {span : Span} {rest : List Lexeme} :
    Closed (op.layer + 1) (⟨.mark op.mark, span⟩ :: rest) where
  stops t after op' hcons hop := by
    cases hcons
    have := op.ofMark?_mark.symm.trans hop
    cases this
    rw [op.leftPower_eq]
    omega
  opening := by cases op <;> rfl

theorem take?_closing_of_reads {ts rest : List Lexeme} {args : List (Expr .parsed) × Span}
    (h : Reads (argumentsFrom finish ts) args rest) : take? (.mark .closing) ts = none := by
  obtain ⟨arg, mid, he, -⟩ := reads_argumentsFrom.1 h
  obtain ⟨lhs, mid', hl, -⟩ := reads_expr.1 he
  obtain ⟨t, after, rfl, ⟨value, hv⟩ | ⟨x, hx⟩ | ho⟩ := exists_of_reads_operand hl
  · rw [take?_eq_none_iff]
    rintro span after ⟨⟩
    cases hv
  · simp [take?, hx]
  · simp [take?, ho]

mutual

/-- Reading on from the lexemes of an expression is reading on from the expression. -/
theorem reads_operators_of_exprAt {n m : Nat} {us rest : List Lexeme} {e : Expr .parsed} :
    ExprAt n us e → m ≤ n → Closed (n + 1) rest → ∀ a after,
      Reads (operators finish (2 * m) e rest) a after →
      Reads (expr finish (2 * m) (us ++ rest)) a after
  | .tighter h, hm, hc, a, after, ha =>
    reads_operators_of_exprAt h (Nat.le_succ_of_le hm) (hc.mono (Nat.le_succ _)) a after ha
  | @ExprAt.chain op _ ls rs l r here span hop hl hr hjoin, hm, hc, a, after, ha => by
    have hc' : Closed (n + 1) (⟨.mark op.mark, here⟩ :: (rs ++ rest)) := hop ▸ closed_of_operator
    rw [List.append_assoc]
    refine reads_operators_of_exprAt hl hm hc' a after ?_
    have hp : 2 * m ≤ op.leftPower := by
      rw [op.leftPower_eq, hop]
      omega
    refine (reads_operators_cons (t := ⟨.mark op.mark, here⟩) op.ofMark?_mark hp).2
      ⟨r, rest, ?_, span, hjoin, ha⟩
    rw [op.rightPower_eq, hop]
    exact reads_operators_of_exprAt hr (Nat.le_refl _) (hc.mono (Nat.le_succ _)) r rest
      (reads_operators_stop hc.stops)
  | .literal hv, _, _, _, _, ha =>
    reads_expr.2 ⟨_, rest, (reads_operand_literal hv).2 ⟨rfl, rfl⟩, ha⟩
  | .var, _, hc, _, _, ha => reads_expr.2 ⟨_, rest, (reads_operand_var hc.opening).2 ⟨rfl, rfl⟩, ha⟩
  | @ExprAt.call x span _ close whole ts args hargs hjoin, _, _, _, _, ha => by
    refine reads_expr.2 ⟨_, rest, ?_, ha⟩
    rw [List.cons_append, List.cons_append, List.append_assoc]
    refine reads_operand_call.2 ⟨(args, close), rest, ?_, whole, hjoin, rfl, rfl⟩
    by_cases hne : args = []
    · subst hne
      cases hargs
      exact reads_arguments_nil.2 ⟨rfl, rfl⟩
    · have := reads_argumentsFrom_of_argumentsAt close rest hargs hne
      exact (reads_arguments_cons (take?_closing_of_reads this)).2 this
  | @ExprAt.group span close whole ts e' h hjoin, _, _, _, _, ha => by
    refine reads_expr.2 ⟨_, rest, ?_, ha⟩
    rw [List.cons_append, List.append_assoc]
    refine reads_operand_group.2 ⟨e', _, ?_, close, rest, rfl, whole, hjoin, rfl, rfl⟩
    exact reads_operators_of_exprAt (m := 0) h (Nat.zero_le _) closed_of_closing e' _
      (reads_operators_stop closed_of_closing.stops)

theorem reads_argumentsFrom_of_argumentsAt (close : Span) (rest : List Lexeme) {us : List Lexeme}
    {es : List (Expr .parsed)} : ArgumentsAt us es → es ≠ [] →
    Reads (argumentsFrom finish (us ++ ⟨.mark .closing, close⟩ :: rest)) (es, close) rest
  | .nil, hne => absurd rfl hne
  | .last h, _ => by
    refine reads_argumentsFrom.2 ⟨_, _, ?_, .inl ⟨close, rfl, rfl⟩⟩
    exact reads_operators_of_exprAt (m := 0) h (Nat.zero_le _) closed_of_closing _ _
      (reads_operators_stop closed_of_closing.stops)
  | @ArgumentsAt.more ts vs comma e e' es h hmore, _ => by
    have hmore := reads_argumentsFrom_of_argumentsAt close rest hmore (List.cons_ne_nil _ _)
    rw [List.append_assoc]
    refine reads_argumentsFrom.2 ⟨e, _, ?_, .inr ⟨comma, _, rfl, (e' :: es, close), hmore, rfl⟩⟩
    exact reads_operators_of_exprAt (m := 0) h (Nat.zero_le _) closed_of_comma _ _
      (reads_operators_stop closed_of_comma.stops)

end

theorem reads_of_exprAt {us rest : List Lexeme} {e : Expr .parsed} (h : ExprAt 0 us e)
    (hc : Closed 0 rest) : Reads (expr finish 0 (us ++ rest)) e rest :=
  reads_operators_of_exprAt (m := 0) h (Nat.zero_le _) (hc.mono (Nat.zero_le _)) e rest
    (reads_operators_stop hc.stops)

theorem reads_of_initialAt {us rest : List Lexeme} {initial : Option (Expr .parsed)} {stop : Span}
    (h : InitialAt us initial) :
    Reads (initializer finish (us ++ ⟨.mark .semicolon, stop⟩ :: rest)) initial
      (⟨.mark .semicolon, stop⟩ :: rest) := by
  cases h with
  | none => exact reads_initializer_none rfl
  | some h =>
    exact reads_initializer_some.2 ⟨_, _, reads_of_exprAt h (closed_of_head rfl (by decide)), rfl,
      rfl⟩

/-! A statement is not taken for one of another kind. -/

/-- An expression starts with no keyword but the two literals. -/
theorem keyword_of_reads_expr {power : Nat} {k : Keyword} {span : Span} {ts rest : List Lexeme}
    {e : Expr .parsed} (h : Reads (expr finish power (⟨.keyword k, span⟩ :: ts)) e rest) :
    k = .TRUE ∨ k = .FALSE := by
  obtain ⟨lhs, mid, hl, -⟩ := reads_expr.1 h
  obtain ⟨t, after, hcons, ⟨value, hv⟩ | ⟨x, hx⟩ | ho⟩ := exists_of_reads_operand hl <;> cases hcons
  · cases k <;> first | exact .inl rfl | exact .inr rfl | cases hv
  · cases hx
  · cases ho

/-- An operand of one word, with `=` behind it, is a whole expression. -/
theorem rest_of_reads_expr {power : Nat} {t u : Lexeme} {ts rest : List Lexeme}
    {e : Expr .parsed} (h : Reads (expr finish power (t :: u :: ts)) e rest)
    (ht : t.spelling.kind = .identifier) (hu : u.spelling.kind = .mark .assign) :
    rest = u :: ts := by
  obtain ⟨lhs, mid, hl, ho⟩ := reads_expr.1 h
  have hmid : mid = u :: ts := by
    obtain ⟨_, _, hcons, ⟨value, hv⟩ | ⟨x, hx⟩ | ho⟩ := exists_of_reads_operand hl <;> cases hcons
    · exact ((reads_operand_literal hv).1 hl).2
    · obtain ⟨spelling, span⟩ := t
      obtain rfl : spelling = .name x := hx
      refine ((reads_operand_var ?_).1 hl).2
      rw [take?_eq_none_iff]
      rintro span after ⟨⟩
      cases hu
    · rw [ho] at ht
      cases ht
  subst hmid
  have hstop : Stops power (u :: ts) := by
    intro t' after op hcons hop
    cases hcons
    rw [spelling_of_operator? hop] at hu
    cases op <;> cases hu
  exact (ho.unique (reads_operators_stop hstop)).2

theorem startsAssignment_of_reads_exprStmt {ts rest : List Lexeme} {s : Stmt .parsed}
    (h : Reads (exprStmt finish ts) s rest) : startsAssignment ts = false := by
  obtain ⟨e, mid, he, stop, mid', hstop, -⟩ := reads_exprStmt.1 h
  match ts with
  | [] => rfl
  | [_] => rfl
  | t :: u :: ts =>
    refine Bool.eq_false_iff.2 fun hs => ?_
    simp only [startsAssignment, Bool.and_eq_true, decide_eq_true_eq] at hs
    have hu := hs.2
    obtain rfl := rest_of_reads_expr he hs.1 hu
    obtain ⟨rfl, -⟩ := List.cons.inj (reads_mark.1 hstop)
    cases hu

theorem reads_stmt_of_exprStmt {ts rest : List Lexeme} {s : Stmt .parsed}
    (h : Reads (exprStmt finish ts) s rest) : Reads (stmt finish ts) s rest := by
  obtain ⟨e, mid, he, -⟩ := reads_exprStmt.1 h
  rw [reads_stmt_other, startsAssignment_of_reads_exprStmt h]
  · exact h
  · rintro k hk span after rfl
    rcases keyword_of_reads_expr he with rfl | rfl <;> simp at hk
  · rintro span after rfl
    obtain ⟨lhs, mid, hl, -⟩ := reads_expr.1 he
    obtain ⟨_, _, hcons, ⟨value, hv⟩ | ⟨x, hx⟩ | ho⟩ := exists_of_reads_operand hl <;> cases hcons
    · cases hv
    · cases hx
    · cases ho

/-- The keywords that end a block start no statement. -/
theorem keyword_of_reads_stmt {k : Keyword} {span : Span} {ts rest : List Lexeme}
    {s : Stmt .parsed} (h : Reads (stmt finish (⟨.keyword k, span⟩ :: ts)) s rest) :
    k ∈ [Keyword.LET, .IF, .WHILE, .TRUE, .FALSE] := by
  by_cases hk : k ∈ [Keyword.LET, .IF, .WHILE]
  · simp only [List.mem_cons, List.not_mem_nil, or_false] at hk ⊢
    grind
  · rw [reads_stmt_other] at h
    · split at h
      · obtain ⟨target, mid, ht, -⟩ := reads_assignment.1 h
        cases reads_ident.1 ht
      · obtain ⟨e, mid, he, -⟩ := reads_exprStmt.1 h
        rcases keyword_of_reads_expr he with rfl | rfl <;> simp
    · rintro k' hk' span after ⟨⟩
      exact hk hk'
    · rintro span after ⟨⟩

/-- The keywords that may end a block. -/
def EndsBlock (stops : List Keyword) : Prop := ∀ k ∈ stops, k = .ELSE ∨ k = .END

theorem endsBlock_nil : EndsBlock [] := by simp [EndsBlock]

theorem endsBlock_END : EndsBlock [.END] := by simp [EndsBlock]

theorem endsBlock_ELSE_END : EndsBlock [.ELSE, .END] := by simp [EndsBlock]

theorem not_stop_of_reads_stmt {stops : List Keyword} {ts rest : List Lexeme} {s : Stmt .parsed}
    (hstops : EndsBlock stops) (h : Reads (stmt finish ts) s rest) :
    ¬ (ts.isEmpty || startsWithAny stops ts) := by
  match ts with
  | [] =>
    rw [reads_stmt_other (by simp) (by simp)] at h
    obtain ⟨e, mid, he, -⟩ := reads_exprStmt.1 h
    obtain ⟨lhs, mid, hl, -⟩ := reads_expr.1 he
    obtain ⟨_, _, hcons, -⟩ := exists_of_reads_operand hl
    cases hcons
  | t :: ts =>
    rw [List.isEmpty_cons, Bool.false_or]
    unfold startsWithAny
    split
    · next k span after hcons =>
      cases hcons
      intro hk
      have := keyword_of_reads_stmt h
      rcases hstops k (by simpa using hk) with rfl | rfl <;> simp at this
    · simp

mutual

theorem reads_of_stmtAt {us rest : List Lexeme} {s : Stmt .parsed} :
    StmtAt us s → Reads (stmt finish (us ++ rest)) s rest
  | @StmtAt.expr _ e stop span h hjoin => by
    refine reads_stmt_of_exprStmt (reads_exprStmt.2 ?_)
    rw [List.append_assoc]
    exact ⟨e, _, reads_of_exprAt h (closed_of_head rfl (by decide)), stop, rest, reads_mark.2 rfl,
      span, hjoin, rfl, rfl⟩
  | @StmtAt.declaration x ty _ here colon there stop span _ initial h hjoin => by
    simp only [List.cons_append]
    rw [List.append_assoc]
    exact reads_stmt_LET.2 (reads_declaration.2 ⟨⟨x, here⟩, _, reads_ident.2 rfl, colon, _,
      reads_mark.2 rfl, ⟨ty, there⟩, _, reads_ident.2 rfl, initial, _, reads_of_initialAt h, stop, _,
      reads_mark.2 rfl, span, hjoin, rfl, rfl⟩)
  | @StmtAt.assignment x here assign stop span _ e h hjoin => by
    simp only [List.cons_append]
    rw [List.append_assoc]
    rw [reads_stmt_other (by simp) (by simp), if_pos (by rfl)]
    exact reads_assignment.2 ⟨⟨x, here⟩, _, reads_ident.2 rfl, assign, _, reads_mark.2 rfl, e, _,
      reads_of_exprAt h (closed_of_head rfl (by decide)), stop, _, reads_mark.2 rfl, span, hjoin,
      rfl, rfl⟩
  | @StmtAt.branch _ then' stop span _ _ _ c yes no hc hyes hno hjoin => by
    rw [List.cons_append, List.append_assoc, List.cons_append, List.append_assoc, List.append_assoc]
    obtain ⟨hstop, hno⟩ := reads_of_elseAt stop rest hno
    exact reads_stmt_IF.2 ⟨c, _, reads_of_exprAt hc (closed_of_head rfl (by decide)), then', _,
      reads_keyword.2 rfl, yes, _, reads_of_blockAt hyes endsBlock_ELSE_END hstop, no, _, hno, stop,
      _, reads_keyword.2 rfl, span, hjoin, rfl, rfl⟩
  | @StmtAt.loop _ do' stop span _ _ c body hc hbody hjoin => by
    rw [List.cons_append, List.append_assoc, List.cons_append, List.append_assoc]
    exact reads_stmt_WHILE.2 ⟨c, _, reads_of_exprAt hc (closed_of_head rfl (by decide)), do', _,
      reads_keyword.2 rfl, body, _, reads_of_blockAt hbody endsBlock_END rfl, stop, _,
      reads_keyword.2 rfl, span, hjoin, rfl, rfl⟩

theorem reads_of_elseAt (stop : Span) (rest : List Lexeme) {us : List Lexeme} {no : Block .parsed} :
    ElseAt us no →
    ((us ++ ⟨.keyword .END, stop⟩ :: rest).isEmpty ||
      startsWithAny [.ELSE, .END] (us ++ ⟨.keyword .END, stop⟩ :: rest)) ∧
    Reads (otherwise finish (us ++ ⟨.keyword .END, stop⟩ :: rest)) no
      (⟨.keyword .END, stop⟩ :: rest)
  | .none => ⟨rfl, (reads_otherwise_none rfl).2 ⟨rfl, rfl⟩⟩
  | .some h => ⟨rfl, reads_otherwise_some.2 (reads_of_blockAt h endsBlock_END rfl)⟩

theorem reads_of_blockAt {stops : List Keyword} {us rest : List Lexeme} {ss : Block .parsed} :
    BlockAt us ss → EndsBlock stops → (rest.isEmpty || startsWithAny stops rest) →
    Reads (block finish stops (us ++ rest)) ss rest
  | .nil, _, hstop => (reads_block_stop hstop).2 ⟨rfl, rfl⟩
  | @BlockAt.cons _ vs s ss hs hss, hstops, hstop => by
    rw [List.append_assoc]
    have hs : Reads (stmt finish _) s (vs ++ rest) := reads_of_stmtAt hs
    exact (reads_block_cons (not_stop_of_reads_stmt hstops hs)).2
      ⟨s, _, hs, ss, rest, reads_of_blockAt hss hstops hstop, rfl, rfl⟩

end

end Parser

end LetLang
