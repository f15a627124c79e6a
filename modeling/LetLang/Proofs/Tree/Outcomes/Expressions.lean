import LetLang.Proofs.Tree.Outcomes.Basic

/-!
What the readers of expressions can do. Where one of them fails, a name stands for the operand that
is missing and parentheses are closed.
-/

namespace LetLang.Parser

open Grammar

variable {limit : Nat} {finish : Span} {ts : List Lexeme}

def OpensExpr (n : Nat) : List Lexeme → Prop := Opens 1 fun ws => ∃ e, Layer n ws e

/-- Arguments and the parenthesis after them. -/
def OpensArguments : List Lexeme → Prop :=
  Opens 2 fun ws => ∃ vs args, ws = vs ++ [.mark .closing] ∧ Arguments vs args

def OpensArgumentList : List Lexeme → Prop :=
  Opens 2 fun ws => ∃ vs args, ws = vs ++ [.mark .closing] ∧ ArgumentList vs args

theorem opensExpr_nil {n : Nat} (hn : n ≤ 3) : OpensExpr n [] :=
  ⟨[.name "x"], by simp [fillers], by simp, _, (Layer.primary (.var (by decide))).mono hn⟩

theorem OpensExpr.mono {m n : Nat} {used : List Lexeme} (h : OpensExpr n used) (hm : m ≤ n) :
    OpensExpr m used := by
  refine h.around [] (by simp) (by simp) ?_
  rintro ws ⟨e, he⟩
  exact ⟨e, by simpa using he.mono hm⟩

theorem moveOperators_of_stops {power : Nat} (h : Stops power ts) :
    Goal.moveOperators power ((look ts).bind operator?) = .replace [] := by
  cases ts with
  | nil => rfl
  | cons t ts =>
    simp only [look, List.head?_cons, Option.map_some, Option.bind_some]
    cases hop : operator? t.spelling with
    | none => rfl
    | some op => rw [Goal.moveOperators, if_pos (h t ts op rfl hop)]

mutual

theorem outcome_layer (hlimit : limit ≤ Span.maxLength) {n : Nat} {ts : List Lexeme} (hn : n ≤ 3)
    (hts : ∀ t ∈ ts, t.Sound limit) :
    Outcome finish ts [.expr (2 * n)] (OpensExpr n) (expr finish (2 * n) ts) := by
  rw [expr]
  refine .replace rfl (.bind (outcome_operand hlimit hts) (fun _ h => h.mono hn) ?_)
  intro lhs mid hm hl
  obtain ⟨us, rfl, he⟩ := operandAt_of_reads hl
  obtain ⟨hus, hmid⟩ := List.forall_mem_append.1 hts
  exact ⟨us, rfl, (outcome_operators hlimit he stops_all hus hmid).relaxed⟩
termination_by 3 * ts.length + 1

theorem outcome_operators (hlimit : limit ≤ Span.maxLength) {n k : Nat} {ts us : List Lexeme}
    {lhs : Expr .parsed} (hl : ExprAt k us lhs) (hstop : Stops (2 * (k + 1)) ts)
    (hus : ∀ t ∈ us, t.Sound limit) (hts : ∀ t ∈ ts, t.Sound limit) :
    Outcome finish ts [.operators (2 * n)] (fun used => OpensExpr n (us ++ used))
      (operators finish (2 * n) lhs ts) := by
  by_cases hs : Stops (2 * n) ts
  · exact .reads (reads_operators_stop hs) fun gs => .replace (moveOperators_of_stops hs) .refl
  · obtain ⟨⟨_, here⟩, after, op, rfl, hop, hp⟩ := not_stops_iff.1 hs
    obtain rfl := spelling_of_operator? hop
    have hlayer : op.layer ≤ k := by
      have := hstop _ after op rfl hop
      rw [op.leftPower_eq] at this
      omega
    have hn' : n ≤ op.layer := by
      rw [op.leftPower_eq] at hp
      omega
    obtain ⟨ht, hafter⟩ := List.forall_mem_cons.1 hts
    have hleft := (hl.mono hlayer).layer fun t ht => (hus t ht).proper
    have hmove : Goal.moveOperators (2 * n) (operator? (.mark op.mark)) =
        .take [.expr op.rightPower, .operators (2 * n)] := by
      rw [hop, Goal.moveOperators, if_neg (Nat.not_lt.2 hp)]
    rw [operators]
    simp only [hop]
    rw [if_neg (Nat.not_lt.2 hp)]
    rw [op.rightPower_eq] at hmove ⊢
    -- the operator holds what is on its left, which becomes its left operand
    refine .take hmove (.bind (outcome_layer hlimit (Nat.succ_le_succ op.layer_le) hafter)
      (fun used h => ?_) ?_)
    · refine h.around [] (by simp) (by simp; omega) ?_
      rintro ws ⟨e, he⟩
      exact ⟨_, by simpa [Spelling.word] using (Layer.chain rfl hleft he).mono hn'⟩
    · intro rhs mid hm hr
      have hlt := hr.shorter
      obtain ⟨rs, rfl, hr, hs₁⟩ := exprAt_of_reads hr (Nat.succ_le_succ op.layer_le)
      obtain ⟨hrs, hmid⟩ := List.forall_mem_append.1 hafter
      have hus' : ∀ t ∈ us ++ ⟨.mark op.mark, here⟩ :: rs, t.Sound limit :=
        List.forall_mem_append.2 ⟨hus, List.forall_mem_cons.2 ⟨ht, hrs⟩⟩
      refine ⟨rs, rfl, .joined hlimit (hl.hi_le fun t ht => (hus t ht).hi_le)
        (hr.hi_le fun t ht => (hrs t ht).hi_le) fun span hjoin => ?_⟩
      have := outcome_operators hlimit (n := n)
        (.chain rfl (hl.mono hlayer) hr hjoin) hs₁ hus' hmid
      exact this.relaxed.mono fun used h => by simpa using h
termination_by 3 * ts.length

theorem outcome_operand (hlimit : limit ≤ Span.maxLength) {ts : List Lexeme}
    (hts : ∀ t ∈ ts, t.Sound limit) :
    Outcome finish ts [.operand] (OpensExpr 3) (operand finish ts) := by
  match ts with
  | [] =>
    rw [operand]
    exact .fail (opensExpr_nil (Nat.le_refl _)) rfl rfl
  | ⟨spelling, span⟩ :: ts =>
    obtain ⟨ht, htail⟩ := List.forall_mem_cons.1 hts
    rw [operand]
    cases spelling with
    | keyword k =>
      cases k <;> first
        | exact .take rfl .done
        | exact .fail (opensExpr_nil (Nat.le_refl _)) rfl rfl
    | integer | decimal | string => exact .take rfl .done
    | unreadable k => exact ht.proper.elim
    | name x =>
      cases hp : take? (.mark .opening) ts with
      | none =>
        have hmove : Goal.moveOperand (some (.name x)) (look ts) = .take [] :=
          if_neg (take?_eq_none_iff_look.1 hp)
        simp only
        exact .take hmove .done
      | some p =>
        obtain ⟨opening, rest, h⟩ := p
        obtain rfl := take?_eq_some_iff.1 hp
        have hrest := (List.forall_mem_cons.1 htail).2
        simp only
        refine .take rfl (.pass (.bind (outcome_arguments hlimit hrest) (fun used h => ?_) ?_))
        · refine h.around [] (by simp) (by simp) ?_
          rintro ws ⟨vs, args, hws, hargs⟩
          rw [List.append_nil, wordsOf_cons, wordsOf_cons, List.cons_append, List.cons_append, hws]
          exact ⟨_, .primary (.call ht.proper hargs)⟩
        · intro args mid hm hr
          obtain ⟨us, rfl, hargs⟩ := argumentsAt_of_reads hr
          have hclose := (List.forall_mem_append.1 hrest).2 _ (List.mem_cons_self ..)
          exact ⟨us ++ [⟨.mark .closing, args.2⟩], by simp,
            .joined hlimit ht.hi_le hclose.hi_le fun _ _ => .done⟩
    | mark m =>
      cases m with
      | opening =>
        refine .take rfl (.bind (outcome_layer hlimit (Nat.zero_le _) htail) (fun used h => ?_) ?_)
        · refine h.around [.mark .closing] (by simp [fillers]) (by simp) ?_
          rintro ws ⟨e, he⟩
          exact ⟨_, by simpa [Spelling.word] using Layer.primary (.group he)⟩
        · intro inner mid hm hr
          obtain ⟨us, rfl, he, -⟩ := exprAt_of_reads (n := 0) hr (Nat.zero_le _)
          obtain ⟨hus, hmid⟩ := List.forall_mem_append.1 htail
          have hlayer := he.layer fun t ht => (hus t ht).proper
          refine ⟨us, rfl, .next_groupEnd ⟨[.mark .closing], by simp [fillers], by simp, _,
            by simpa [Spelling.word] using Layer.primary (.group hlayer)⟩ ?_⟩
          rintro close after hm' rfl
          have hclose := (List.forall_mem_cons.1 hmid).1
          exact .joined hlimit ht.hi_le hclose.hi_le fun _ _ => .done
      | _ => exact .fail (opensExpr_nil (Nat.le_refl _)) rfl rfl
termination_by 3 * ts.length

theorem outcome_arguments (hlimit : limit ≤ Span.maxLength) {ts : List Lexeme}
    (hts : ∀ t ∈ ts, t.Sound limit) :
    Outcome finish ts [.arguments] OpensArguments (arguments finish ts) := by
  cases hp : take? (.mark .closing) ts with
  | some p =>
    obtain ⟨close, rest, h⟩ := p
    obtain rfl := take?_eq_some_iff.1 hp
    rw [arguments]
    simp only [hp]
    exact .take rfl .done
  | none =>
    rw [arguments]
    simp only [hp]
    refine .replace (if_neg (take?_eq_none_iff_look.1 hp)) ((outcome_argumentsFrom hlimit hts).mono
      fun used h => h.around [] (by simp) (by simp) ?_)
    rintro ws ⟨vs, args, hws, hargs⟩
    exact ⟨vs, args, by rw [List.append_nil, hws], .some hargs⟩
termination_by 3 * ts.length + 3

theorem outcome_argumentsFrom (hlimit : limit ≤ Span.maxLength) {ts : List Lexeme}
    (hts : ∀ t ∈ ts, t.Sound limit) :
    Outcome finish ts [.argumentsFrom] OpensArgumentList (argumentsFrom finish ts) := by
  rw [argumentsFrom]
  refine .replace rfl (.bind (outcome_layer hlimit (Nat.zero_le _) hts) (fun used h => ?_) ?_)
  · refine h.around [.mark .closing] (by simp [fillers]) (by simp) ?_
    rintro ws ⟨e, he⟩
    exact ⟨_, [e], (List.append_assoc ..).symm, .last he⟩
  · intro arg mid hm hr
    have hlt := hr.shorter
    obtain ⟨us, rfl, he, -⟩ := exprAt_of_reads (n := 0) hr (Nat.zero_le _)
    obtain ⟨hus, hmid⟩ := List.forall_mem_append.1 hts
    have hlayer := he.layer fun t ht => (hus t ht).proper
    refine ⟨us, rfl, outcome_argumentEnd ?_ ?_ ?_⟩
    · exact ⟨[.mark .closing], by simp [fillers], by simp, wordsOf us, _, by simp, .last hlayer⟩
    · rintro close rest h rfl
      exact .done
    · rintro comma rest h rfl
      have hrest := (List.forall_mem_cons.1 hmid).2
      refine .bind (outcome_argumentsFrom hlimit hrest) (fun used h => ?_) ?_
      · refine h.around [] (by simp) (by simp; omega) ?_
        rintro ws ⟨vs, args, hws, hargs⟩
        exact ⟨_, _, by simp [hws]; rfl, .more hlayer hargs⟩
      · intro args after hm' hr'
        obtain ⟨vs, e, es, hvs, -⟩ := argumentListAt_of_reads hr'
        exact ⟨vs ++ [⟨.mark .closing, args.2⟩], by simpa using hvs, .done⟩
termination_by 3 * ts.length + 2

end

theorem outcome_expr (hlimit : limit ≤ Span.maxLength) (hts : ∀ t ∈ ts, t.Sound limit) :
    Outcome finish ts [.expr 0] (OpensExpr 0) (expr finish 0 ts) :=
  outcome_layer hlimit (Nat.zero_le _) hts

/-- An expression, and what is read after it. -/
theorem Outcome.next_expr (hlimit : limit ≤ Span.maxLength) {β : Type} {n : Nat}
    {goals : List Goal} {Open : List Lexeme → Prop}
    {f : Parsed (Expr .parsed) ts.length → ParseResult β n} (hts : ∀ t ∈ ts, t.Sound limit)
    (hopen : ∀ used, OpensExpr 0 used → Open used)
    (hf : ∀ e us mid h, ts = us ++ mid → ExprAt 0 us e →
      Outcome finish mid goals (fun used => Open (us ++ used)) (f ⟨e, mid, h⟩)) :
    Outcome finish ts (.expr 0 :: goals) Open (expr finish 0 ts >>= f) :=
  .bind (outcome_expr hlimit hts) hopen fun e mid h hr =>
    let ⟨us, hus, he, _⟩ := exprAt_of_reads (n := 0) hr (Nat.zero_le _)
    ⟨us, hus, hf e us mid h hus he⟩

end LetLang.Parser
