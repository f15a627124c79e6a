import LetLang.Proofs.Tree.Places

/-!
What is read is derived, at its places. The operators after an operand are read in a loop; the
operand so far is of some layer, and no operator of a tighter layer comes next.
-/

namespace LetLang

theorem Operator.leftPower_eq (op : Operator) : op.leftPower = 2 * op.layer + 1 := by
  cases op <;> rfl

theorem Operator.rightPower_eq (op : Operator) : op.rightPower = 2 * (op.layer + 1) := by
  cases op <;> rfl

namespace Parser

variable {finish : Span}

theorem spelling_of_operator? {s : Spelling} {op : Operator} (h : operator? s = some op) :
    s = .mark op.mark := by
  unfold operator? at h
  split at h
  · rw [Operator.mark_of_ofMark? h]
  · cases h

/-- No operator is left to chain. -/
theorem stops_all {ts : List Lexeme} : Stops (2 * (3 + 1)) ts := by
  intro t rest op _ _
  have := op.layer_le
  rw [op.leftPower_eq]
  omega

mutual

/-- What is read with the power of a layer is an expression of that layer, and stops in front of
what does not bind so tightly. -/
theorem exprAt_of_reads {n : Nat} {ts rest : List Lexeme} {e : Expr .parsed}
    (h : Reads (expr finish (2 * n) ts) e rest) (hn : n ≤ 3) :
    ∃ us, ts = us ++ rest ∧ ExprAt n us e ∧ Stops (2 * n) rest := by
  obtain ⟨lhs, mid, hl, ho⟩ := reads_expr.1 h
  have hlt := hl.shorter
  obtain ⟨us, rfl, hp⟩ := operandAt_of_reads hl
  obtain ⟨vs, rfl, hlayer, hstop⟩ := chainAt_of_reads ho hn hp stops_all
  exact ⟨us ++ vs, by simp, hlayer, hstop⟩
termination_by 3 * ts.length + 1

/-- The operators go on from an expression of a layer `k` that they have already. -/
theorem chainAt_of_reads {n k : Nat} {ts us rest : List Lexeme} {lhs e : Expr .parsed}
    (h : Reads (operators finish (2 * n) lhs ts) e rest) (hn : n ≤ k) (hl : ExprAt k us lhs)
    (hstop : Stops (2 * (k + 1)) ts) :
    ∃ vs, ts = vs ++ rest ∧ ExprAt n (us ++ vs) e ∧ Stops (2 * n) rest := by
  by_cases hs : Stops (2 * n) ts
  · obtain ⟨rfl, rfl⟩ := h.unique (reads_operators_stop hs)
    rw [← List.append_nil us] at hl
    exact ⟨[], rfl, hl.mono hn, hs⟩
  · obtain ⟨⟨_, here⟩, after, op, hcons, hop, hp⟩ := not_stops_iff.1 hs
    have hlt : after.length < ts.length := by simp [hcons]
    rw [hcons] at h ⊢
    obtain ⟨rhs, mid, hr, span, hjoin, ho⟩ := (reads_operators_cons hop hp).1 h
    have hlt' := hr.shorter
    have hlayer : op.layer ≤ k := by
      have := hstop _ after op hcons hop
      rw [op.leftPower_eq] at this
      omega
    rw [op.rightPower_eq] at hr
    obtain ⟨rs, hafter, hr', hs₁⟩ := exprAt_of_reads hr (Nat.succ_le_succ op.layer_le)
    obtain ⟨vs, hmid, he, hs₂⟩ := chainAt_of_reads (k := op.layer) ho
      (by rw [op.leftPower_eq] at hp; omega) (.chain rfl (hl.mono hlayer) hr' hjoin) hs₁
    obtain rfl := spelling_of_operator? hop
    exact ⟨⟨.mark op.mark, here⟩ :: (rs ++ vs), by simp [hafter, hmid], by simpa using he, hs₂⟩
termination_by 3 * ts.length

theorem operandAt_of_reads {ts rest : List Lexeme} {e : Expr .parsed}
    (h : Reads (operand finish ts) e rest) : ∃ us, ts = us ++ rest ∧ ExprAt 3 us e := by
  obtain ⟨⟨_, span⟩, after, hcons, hcases⟩ := exists_of_reads_operand h
  have hlt : after.length < ts.length := by simp [hcons]
  rw [hcons] at h ⊢
  rcases hcases with ⟨value, hv⟩ | ⟨x, rfl⟩ | rfl
  · obtain ⟨rfl, rfl⟩ := (reads_operand_literal hv).1 h
    exact ⟨[_], rfl, .literal hv⟩
  · cases hp : take? (.mark .opening) after with
    | none =>
      obtain ⟨rfl, rfl⟩ := (reads_operand_var hp).1 h
      exact ⟨[_], rfl, .var⟩
    | some p =>
      obtain ⟨opening, after', hlt'⟩ := p
      obtain rfl := take?_eq_some_iff.1 hp
      obtain ⟨⟨args, close⟩, mid, ha, whole, hjoin, rfl, rfl⟩ := reads_operand_call.1 h
      obtain ⟨us, rfl, hargs⟩ := argumentsAt_of_reads ha
      exact ⟨⟨.name x, span⟩ :: ⟨.mark .opening, opening⟩ :: (us ++ [⟨.mark .closing, close⟩]),
        by simp, .call hargs hjoin⟩
  · obtain ⟨inner, mid, he, close, after', rfl, whole, hjoin, rfl, rfl⟩ := reads_operand_group.1 h
    obtain ⟨us, rfl, hl, -⟩ := exprAt_of_reads (n := 0) he (by omega)
    exact ⟨⟨.mark .opening, span⟩ :: (us ++ [⟨.mark .closing, close⟩]), by simp, .group hl hjoin⟩
termination_by 3 * ts.length

theorem argumentsAt_of_reads {ts rest : List Lexeme} {args : List (Expr .parsed) × Span}
    (h : Reads (arguments finish ts) args rest) :
    ∃ us, ts = us ++ ⟨.mark .closing, args.2⟩ :: rest ∧ ArgumentsAt us args.1 := by
  cases hp : take? (.mark .closing) ts with
  | none =>
    obtain ⟨us, e, es, hts, hes, hargs⟩ := argumentListAt_of_reads ((reads_arguments_cons hp).1 h)
    exact ⟨us, hts, hes ▸ hargs⟩
  | some p =>
    obtain ⟨close, after, hlt⟩ := p
    obtain rfl := take?_eq_some_iff.1 hp
    obtain ⟨rfl, rfl⟩ := reads_arguments_nil.1 h
    exact ⟨[], rfl, .nil⟩
termination_by 3 * ts.length + 3

theorem argumentListAt_of_reads {ts rest : List Lexeme} {args : List (Expr .parsed) × Span}
    (h : Reads (argumentsFrom finish ts) args rest) :
    ∃ us e es, ts = us ++ ⟨.mark .closing, args.2⟩ :: rest ∧ args.1 = e :: es ∧
      ArgumentsAt us (e :: es) := by
  obtain ⟨arg, mid, he, hend⟩ := reads_argumentsFrom.1 h
  have hlt := he.shorter
  obtain ⟨us, rfl, hl, -⟩ := exprAt_of_reads (n := 0) he (by omega)
  rcases hend with ⟨close, rfl, rfl⟩ | ⟨comma, after, rfl, ⟨_, close⟩, hmore, rfl⟩
  · exact ⟨us, arg, [], rfl, rfl, .last hl⟩
  · have hlt' : after.length < (us ++ ⟨.mark .comma, comma⟩ :: after).length :=
      Nat.lt_of_succ_lt hlt
    obtain ⟨vs, e, es, rfl, rfl, hargs⟩ := argumentListAt_of_reads hmore
    exact ⟨us ++ ⟨.mark .comma, comma⟩ :: vs, arg, e :: es, by simp, rfl, .more hl hargs⟩
termination_by 3 * ts.length + 2

end

theorem initialAt_of_reads {ts rest : List Lexeme} {initial : Option (Expr .parsed)}
    (h : Reads (initializer finish ts) initial rest) :
    ∃ us, ts = us ++ rest ∧ InitialAt us initial := by
  cases hp : take? (.mark .assign) ts with
  | none =>
    obtain ⟨rfl, rfl⟩ := h.unique (reads_initializer_none hp)
    exact ⟨[], rfl, .none⟩
  | some p =>
    obtain ⟨assign, after, _⟩ := p
    obtain rfl := take?_eq_some_iff.1 hp
    obtain ⟨e, mid, he, rfl, rfl⟩ := reads_initializer_some.1 h
    obtain ⟨us, rfl, hl, -⟩ := exprAt_of_reads (n := 0) he (by omega)
    exact ⟨_ :: us, rfl, .some hl⟩

theorem stmtAt_of_reads_declaration {start : Span} {ts rest : List Lexeme} {s : Stmt .parsed}
    (h : Reads (declaration finish start ts) s rest) :
    ∃ us, ts = us ++ rest ∧ StmtAt (⟨.keyword .LET, start⟩ :: us) s := by
  obtain ⟨⟨x, here⟩, mid₁, h₁, colon, mid₂, h₂, ⟨ty, there⟩, mid₃, h₃, initial, mid₄, h₄, stop,
    mid₅, h₅, span, hjoin, rfl, rfl⟩ := reads_declaration.1 h
  obtain rfl := reads_ident.1 h₁
  obtain rfl := reads_mark.1 h₂
  obtain rfl := reads_ident.1 h₃
  obtain rfl := reads_mark.1 h₅
  obtain ⟨us, rfl, hi⟩ := initialAt_of_reads h₄
  exact ⟨⟨.name x, here⟩ :: ⟨.mark .colon, colon⟩ :: ⟨.name ty, there⟩ ::
    (us ++ [⟨.mark .semicolon, stop⟩]), by simp, .declaration hi hjoin⟩

theorem stmtAt_of_reads_assignment {ts rest : List Lexeme} {s : Stmt .parsed}
    (h : Reads (assignment finish ts) s rest) : ∃ us, ts = us ++ rest ∧ StmtAt us s := by
  obtain ⟨⟨x, here⟩, mid₁, h₁, assign, mid₂, h₂, value, mid₃, h₃, stop, mid₄, h₄, span, hjoin, rfl,
    rfl⟩ := reads_assignment.1 h
  obtain rfl := reads_ident.1 h₁
  obtain rfl := reads_mark.1 h₂
  obtain rfl := reads_mark.1 h₄
  obtain ⟨us, rfl, hl, -⟩ := exprAt_of_reads (n := 0) h₃ (by omega)
  exact ⟨⟨.name x, here⟩ :: ⟨.mark .assign, assign⟩ :: (us ++ [⟨.mark .semicolon, stop⟩]), by simp,
    .assignment hl hjoin⟩

theorem stmtAt_of_reads_exprStmt {ts rest : List Lexeme} {s : Stmt .parsed}
    (h : Reads (exprStmt finish ts) s rest) : ∃ us, ts = us ++ rest ∧ StmtAt us s := by
  obtain ⟨value, mid₁, h₁, stop, mid₂, h₂, span, hjoin, rfl, rfl⟩ := reads_exprStmt.1 h
  obtain rfl := reads_mark.1 h₂
  obtain ⟨us, rfl, hl, -⟩ := exprAt_of_reads (n := 0) h₁ (by omega)
  exact ⟨us ++ [⟨.mark .semicolon, stop⟩], by simp, .expr hl hjoin⟩

mutual

theorem stmtAt_of_reads {ts rest : List Lexeme} {s : Stmt .parsed}
    (h : Reads (stmt finish ts) s rest) : ∃ us, ts = us ++ rest ∧ StmtAt us s := by
  by_cases hu : ∃ span after, ts = ⟨.unreadable .identifier, span⟩ :: after
  · obtain ⟨span, after, rfl⟩ := hu
    exact absurd h not_reads_stmt_unreadable
  by_cases hk : ∃ k ∈ [Keyword.LET, .IF, .WHILE], ∃ span after, ts = ⟨.keyword k, span⟩ :: after
  · obtain ⟨k, hk, start, after, hcons⟩ := hk
    have hlt : after.length < ts.length := by simp [hcons]
    rw [hcons] at h ⊢
    simp only [List.mem_cons, List.not_mem_nil, or_false] at hk
    rcases hk with rfl | rfl | rfl
    · obtain ⟨us, rfl, hs⟩ := stmtAt_of_reads_declaration (reads_stmt_LET.1 h)
      exact ⟨_ :: us, rfl, hs⟩
    · obtain ⟨condition, mid₁, h₁, then', mid₂, h₂, yes, mid₃, h₃, no, mid₄, h₄, stop, mid₅, h₅,
        span, hjoin, rfl, rfl⟩ := reads_stmt_IF.1 h
      have hlt₁ := h₁.shorter
      have hlt₂ := h₂.shorter
      have hlt₃ := h₃.shorter
      obtain rfl := reads_keyword.1 h₂
      obtain rfl := reads_keyword.1 h₅
      obtain ⟨cs, hcs, hc, -⟩ := exprAt_of_reads (n := 0) h₁ (by omega)
      obtain ⟨ys, hys, hyes⟩ := blockAt_of_reads h₃
      obtain ⟨ns, hns, hno⟩ := elseAt_of_reads h₄
      exact ⟨⟨.keyword .IF, start⟩ :: (cs ++ ⟨.keyword .THEN, then'⟩ ::
        (ys ++ (ns ++ [⟨.keyword .END, stop⟩]))), by simp [hcs, hys, hns],
        .branch hc hyes hno hjoin⟩
    · obtain ⟨condition, mid₁, h₁, do', mid₂, h₂, body, mid₃, h₃, stop, mid₄, h₄, span, hjoin, rfl,
        rfl⟩ := reads_stmt_WHILE.1 h
      have hlt₁ := h₁.shorter
      have hlt₂ := h₂.shorter
      obtain rfl := reads_keyword.1 h₂
      obtain rfl := reads_keyword.1 h₄
      obtain ⟨cs, hcs, hc, -⟩ := exprAt_of_reads (n := 0) h₁ (by omega)
      obtain ⟨bs, hbs, hbody⟩ := blockAt_of_reads h₃
      exact ⟨⟨.keyword .WHILE, start⟩ :: (cs ++ ⟨.keyword .DO, do'⟩ ::
        (bs ++ [⟨.keyword .END, stop⟩])), by simp [hcs, hbs], .loop hc hbody hjoin⟩
  · have hk' : ∀ k ∈ [Keyword.LET, .IF, .WHILE], ∀ span after, ts ≠ ⟨.keyword k, span⟩ :: after :=
      fun k hk' span after hcons => hk ⟨k, hk', span, after, hcons⟩
    rw [reads_stmt_other hk' fun span after hcons => hu ⟨span, after, hcons⟩] at h
    split at h
    · exact stmtAt_of_reads_assignment h
    · exact stmtAt_of_reads_exprStmt h
termination_by 2 * ts.length

theorem blockAt_of_reads {stops : List Keyword} {ts rest : List Lexeme} {ss : Block .parsed}
    (h : Reads (block finish stops ts) ss rest) : ∃ us, ts = us ++ rest ∧ BlockAt us ss := by
  by_cases hstop : ts.isEmpty || startsWithAny stops ts
  · obtain ⟨rfl, rfl⟩ := (reads_block_stop hstop).1 h
    exact ⟨[], rfl, .nil⟩
  · obtain ⟨s, mid, h₁, more, after, h₂, rfl, rfl⟩ := (reads_block_cons hstop).1 h
    have hlt := h₁.shorter
    obtain ⟨us, hus, hs⟩ := stmtAt_of_reads h₁
    obtain ⟨vs, hvs, hss⟩ := blockAt_of_reads h₂
    exact ⟨us ++ vs, by simp [hus, hvs], .cons hs hss⟩
termination_by 2 * ts.length + 1

theorem elseAt_of_reads {ts rest : List Lexeme} {no : Block .parsed}
    (h : Reads (otherwise finish ts) no rest) : ∃ us, ts = us ++ rest ∧ ElseAt us no := by
  cases hp : take? (.keyword .ELSE) ts with
  | none =>
    obtain ⟨rfl, rfl⟩ := (reads_otherwise_none hp).1 h
    exact ⟨[], rfl, .none⟩
  | some p =>
    obtain ⟨span, after, hlt⟩ := p
    have hcons := take?_eq_some_iff.1 hp
    rw [hcons] at h ⊢
    obtain ⟨us, rfl, hss⟩ := blockAt_of_reads (reads_otherwise_some.1 h)
    exact ⟨_ :: us, rfl, .some hss⟩
termination_by 2 * ts.length

end

theorem startsWithAny_nil {ts : List Lexeme} : startsWithAny [] ts = false := by
  unfold startsWithAny
  split <;> rfl

/-- Where no keyword stops the statements, only the end does. -/
theorem block_nil_rest {ts rest : List Lexeme} {ss : Block .parsed}
    (h : Reads (block finish [] ts) ss rest) : rest = [] := by
  by_cases hstop : ts.isEmpty || startsWithAny [] ts
  · obtain ⟨-, rfl⟩ := (reads_block_stop hstop).1 h
    simpa [startsWithAny_nil] using hstop
  · obtain ⟨s, mid, h₁, more, after, h₂, rfl, rfl⟩ := (reads_block_cons hstop).1 h
    have hlt := h₁.shorter
    exact block_nil_rest h₂
termination_by ts.length

end Parser

end LetLang
