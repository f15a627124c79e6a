import LetLang.Proofs.Tree.Outcomes.Expressions

/-!
What the readers of statements can do. Where one of them fails, the statements that are open around
the place can be ended in a few words.
-/

namespace LetLang.Parser

open Grammar

variable {limit : Nat} {finish : Span} {ts : List Lexeme}

def OpensStmt : List Lexeme → Prop := Opens 3 fun ws => ∃ s, Statement ws s

/-- The beginnings of at least one statement. -/
def OpensBlock : List Lexeme → Prop := Opens 3 fun ws => ∃ ss, Statements ws ss ∧ ss ≠ []

def OpensElse : List Lexeme → Prop := Opens 3 fun ws => ∃ ss, Otherwise ws ss

theorem outcome_initializer (hlimit : limit ≤ Span.maxLength) (hts : ∀ t ∈ ts, t.Sound limit) :
    Outcome finish ts [.initializer] (Opens 1 fun ws => ∃ initial, Initializer ws initial)
      (initializer finish ts) := by
  unfold initializer
  cases hp : take? (.mark .assign) ts with
  | none => exact .replace (if_neg (take?_eq_none_iff_look.1 hp)) .done
  | some p =>
    obtain ⟨assign, rest, h⟩ := p
    obtain rfl := take?_eq_some_iff.1 hp
    have hrest := (List.forall_mem_cons.1 hts).2
    refine .take rfl (.next_expr hlimit hrest (fun used h => ?_) fun _ _ _ _ _ _ => .done)
    refine h.around [] (by simp) (by simp) ?_
    rintro ws ⟨e, he⟩
    exact ⟨some e, by simpa [Spelling.word] using Initializer.some he⟩

theorem outcome_declaration (hlimit : limit ≤ Span.maxLength) {start : Span}
    (hstart : start.hi ≤ limit) (hts : ∀ t ∈ ts, t.Sound limit) :
    Outcome finish ts Goal.declaration (fun used => OpensStmt (⟨.keyword .LET, start⟩ :: used))
      (declaration finish start ts) := by
  have hvar : Grammar.Initializer [] none := .none
  unfold declaration
  refine .next_ident hts ⟨[.name "x", .mark .colon, .name "x", .mark .semicolon], by simp [fillers],
    by simp, _, .declaration (by decide) (by decide) hvar⟩ ?_
  rintro x here mid₁ h₁ rfl
  obtain ⟨hx, hmid₁⟩ := List.forall_mem_cons.1 hts
  refine .next_mark .colon ⟨[.mark .colon, .name "x", .mark .semicolon], by simp [fillers], by simp,
    _, .declaration hx.proper (by decide) hvar⟩ ?_
  rintro colon mid₂ h₂ rfl
  have hmid₂ := (List.forall_mem_cons.1 hmid₁).2
  refine .next_ident hmid₂ ⟨[.name "x", .mark .semicolon], by simp [fillers], by simp,
    _, .declaration hx.proper (by decide) hvar⟩ ?_
  rintro ty there mid₃ h₃ rfl
  obtain ⟨hty, hmid₃⟩ := List.forall_mem_cons.1 hmid₂
  refine .bind (outcome_initializer hlimit hmid₃) (fun used h => ?_) ?_
  · refine h.around [.mark .semicolon] (by simp [fillers]) (by simp) ?_
    rintro ws ⟨initial, hi⟩
    exact ⟨_, by simpa [Spelling.word] using Statement.declaration hx.proper hty.proper hi⟩
  intro initial mid₄ h₄ hr
  obtain ⟨us, rfl, hi⟩ := initialAt_of_reads hr
  obtain ⟨hus, hmid₄⟩ := List.forall_mem_append.1 hmid₃
  have hi := hi.initializer fun t ht => (hus t ht).proper
  refine ⟨us, rfl, .next_mark .semicolon ⟨[.mark .semicolon], by simp [fillers], by simp, _,
    by simpa [Spelling.word] using Statement.declaration hx.proper hty.proper hi⟩ ?_⟩
  rintro stop mid₅ h₅ rfl
  exact .joined hlimit hstart (List.forall_mem_cons.1 hmid₄).1.hi_le fun _ _ => .done

theorem outcome_exprStmt (hlimit : limit ≤ Span.maxLength) (hts : ∀ t ∈ ts, t.Sound limit) :
    Outcome finish ts Goal.exprStmt OpensStmt (exprStmt finish ts) := by
  unfold exprStmt
  refine .next_expr hlimit hts (fun used h => ?_) ?_
  · refine h.around [.mark .semicolon] (by simp [fillers]) (by simp) ?_
    rintro ws ⟨e, he⟩
    exact ⟨_, by simpa using Statement.expr he⟩
  rintro e us mid h rfl he
  obtain ⟨hus, hmid⟩ := List.forall_mem_append.1 hts
  have hlayer := he.layer fun t ht => (hus t ht).proper
  refine .next_mark .semicolon ⟨[.mark .semicolon], by simp [fillers], by simp, _,
    by simpa using Statement.expr hlayer⟩ ?_
  rintro stop after h' rfl
  exact .joined hlimit (he.hi_le fun t ht => (hus t ht).hi_le)
    (List.forall_mem_cons.1 hmid).1.hi_le fun _ _ => .done

/-- A name alone is a statement when a semicolon follows. -/
theorem statement_name {x : String} (hx : IsName x) :
    Statement [.name x, .mark .semicolon] (.expr (.var x)) :=
  Statement.expr ((Layer.primary (.var hx)).mono (Nat.zero_le _))

theorem outcome_assignment (hlimit : limit ≤ Span.maxLength) (hts : ∀ t ∈ ts, t.Sound limit) :
    Outcome finish ts Goal.assignment OpensStmt (assignment finish ts) := by
  unfold assignment
  refine .next_ident hts ⟨[.name "x", .mark .semicolon], by simp [fillers], by simp, _,
    statement_name (by decide)⟩ ?_
  rintro x here mid₁ h₁ rfl
  obtain ⟨hx, hmid₁⟩ := List.forall_mem_cons.1 hts
  refine .next_mark .assign ⟨[.mark .semicolon], by simp [fillers], by simp, _,
    statement_name hx.proper⟩ ?_
  rintro assign mid₂ h₂ rfl
  have hmid₂ := (List.forall_mem_cons.1 hmid₁).2
  refine .next_expr hlimit hmid₂ (fun used h => ?_) ?_
  · refine h.around [.mark .semicolon] (by simp [fillers]) (by simp) ?_
    rintro ws ⟨e, he⟩
    exact ⟨_, by simpa [Spelling.word] using Statement.assignment hx.proper he⟩
  rintro e us mid₃ h₃ rfl he
  obtain ⟨hus, hmid₃⟩ := List.forall_mem_append.1 hmid₂
  have he := he.layer fun t ht => (hus t ht).proper
  refine .next_mark .semicolon ⟨[.mark .semicolon], by simp [fillers], by simp, _,
    by simpa [Spelling.word] using Statement.assignment hx.proper he⟩ ?_
  rintro stop mid₄ h₄ rfl
  exact .joined hlimit hx.hi_le (List.forall_mem_cons.1 hmid₃).1.hi_le fun _ _ => .done

/-- The condition of an assignment, on what is spelled. -/
theorem startsAssignment_iff : startsAssignment ts ↔
    Goal.kindOf (look ts) = .identifier ∧ Goal.kindOf (look ts.tail) = .mark .assign := by
  match ts with
  | [] => simp [startsAssignment, look, Goal.kindOf]
  | [t] => simp [startsAssignment, look, Goal.kindOf]
  | t :: u :: ts => simp [startsAssignment, look, Goal.kindOf]

theorem stopsBlock_look {stops : List Keyword} :
    Goal.stopsBlock stops (look ts) = (ts.isEmpty || startsWithAny stops ts) := by
  match ts with
  | [] => rfl
  | ⟨spelling, span⟩ :: ts => cases spelling <;> rfl

/-- A statement that no keyword announces. -/
theorem outcome_stmt_other (hlimit : limit ≤ Span.maxLength) (hts : ∀ t ∈ ts, t.Sound limit)
    (h : ∀ k ∈ [Keyword.LET, .IF, .WHILE], ∀ span after, ts ≠ ⟨.keyword k, span⟩ :: after) :
    Outcome finish ts [.stmt] OpensStmt (stmt finish ts) := by
  have hstmt : stmt finish ts =
      if startsAssignment ts then assignment finish ts else exprStmt finish ts := by
    rw [stmt]
    · exact h .LET (by simp)
    · exact h .IF (by simp)
    · exact h .WHILE (by simp)
    · rintro span after rfl
      exact (List.forall_mem_cons.1 hts).1.proper
  have hmove : Goal.moveStmt (look ts) (look ts.tail) =
      .replace (if startsAssignment ts then Goal.assignment else Goal.exprStmt) := by
    have hlook : ∀ k ∈ [Keyword.LET, .IF, .WHILE], look ts ≠ some (.keyword k) := fun k hk =>
      take?_eq_none_iff_look.1 (take?_eq_none_iff.2 (h k hk))
    unfold Goal.moveStmt
    split
    · next heq => exact absurd heq (hlook .LET (by simp))
    · next heq => exact absurd heq (hlook .IF (by simp))
    · next heq => exact absurd heq (hlook .WHILE (by simp))
    · simp only [startsAssignment_iff]
  rw [hstmt]
  refine .replace hmove ?_
  split
  · exact outcome_assignment hlimit hts
  · exact outcome_exprStmt hlimit hts

section Compound

variable {start : Span}
  (hblock : ∀ stops us, us.length < ts.length → (∀ t ∈ us, t.Sound limit) →
    Outcome finish us [.block stops] OpensBlock (block finish stops us))
include hblock

theorem outcome_branch (hlimit : limit ≤ Span.maxLength)
    (hts : ∀ t ∈ ⟨.keyword .IF, start⟩ :: ts, t.Sound limit)
    (helse : ∀ us, us.length < ts.length → (∀ t ∈ us, t.Sound limit) →
      Outcome finish us [.otherwise] OpensElse (otherwise finish us)) :
    Outcome finish (⟨.keyword .IF, start⟩ :: ts) [.stmt] OpensStmt
      (stmt finish (⟨.keyword .IF, start⟩ :: ts)) := by
  obtain ⟨hstart, hts⟩ := List.forall_mem_cons.1 hts
  rw [stmt]
  refine .take rfl (.next_expr hlimit hts (fun used h => ?_) ?_)
  · refine h.around [.keyword .THEN, .keyword .END] (by simp [fillers]) (by simp) ?_
    rintro ws ⟨e, he⟩
    exact ⟨_, by simpa [Spelling.word] using Statement.branch he .nil .none⟩
  rintro c cs mid₁ h₁ rfl hc
  obtain ⟨hcs, hmid₁⟩ := List.forall_mem_append.1 hts
  have hc := hc.layer fun t ht => (hcs t ht).proper
  refine .next_keyword hmid₁ .THEN ⟨[.keyword .THEN, .keyword .END], by simp [fillers], by simp, _,
    by simpa [Spelling.word] using Statement.branch hc .nil .none⟩ ?_
  rintro then' mid₂ h₂ rfl
  have hmid₂ := (List.forall_mem_cons.1 hmid₁).2
  refine .bind (hblock _ _ (by omega) hmid₂) (fun used h => ?_) ?_
  · refine h.around [.keyword .END] (by simp [fillers]) (by simp; omega) ?_
    rintro ws ⟨ss, hss, _⟩
    exact ⟨_, by simpa [Spelling.word] using Statement.branch hc hss .none⟩
  intro yes mid₃ h₃ hr
  obtain ⟨ys, rfl, hyes⟩ := blockAt_of_reads hr
  obtain ⟨hys, hmid₃⟩ := List.forall_mem_append.1 hmid₂
  have hyes := hyes.statements fun t ht => (hys t ht).proper
  refine ⟨ys, rfl, .bind (helse _ (by simp; omega) hmid₃) (fun used h => ?_) ?_⟩
  · refine h.around [.keyword .END] (by simp [fillers]) (by simp; omega) ?_
    rintro ws ⟨ss, hss⟩
    exact ⟨_, by simpa [Spelling.word] using Statement.branch hc hyes hss⟩
  intro no mid₄ h₄ hr
  obtain ⟨ns, rfl, hno⟩ := elseAt_of_reads hr
  obtain ⟨hns, hmid₄⟩ := List.forall_mem_append.1 hmid₃
  have hno := hno.otherwise fun t ht => (hns t ht).proper
  refine ⟨ns, rfl, .next_keyword hmid₄ .END ⟨[.keyword .END], by simp [fillers], by simp, _,
    by simpa [Spelling.word] using Statement.branch hc hyes hno⟩ ?_⟩
  rintro stop mid₅ h₅ rfl
  exact .joined hlimit hstart.hi_le (List.forall_mem_cons.1 hmid₄).1.hi_le fun _ _ => .done

theorem outcome_loop (hlimit : limit ≤ Span.maxLength)
    (hts : ∀ t ∈ ⟨.keyword .WHILE, start⟩ :: ts, t.Sound limit) :
    Outcome finish (⟨.keyword .WHILE, start⟩ :: ts) [.stmt] OpensStmt
      (stmt finish (⟨.keyword .WHILE, start⟩ :: ts)) := by
  obtain ⟨hstart, hts⟩ := List.forall_mem_cons.1 hts
  rw [stmt]
  refine .take rfl (.next_expr hlimit hts (fun used h => ?_) ?_)
  · refine h.around [.keyword .DO, .keyword .END] (by simp [fillers]) (by simp) ?_
    rintro ws ⟨e, he⟩
    exact ⟨_, by simpa [Spelling.word] using Statement.loop he .nil⟩
  rintro c cs mid₁ h₁ rfl hc
  obtain ⟨hcs, hmid₁⟩ := List.forall_mem_append.1 hts
  have hc := hc.layer fun t ht => (hcs t ht).proper
  refine .next_keyword hmid₁ .DO ⟨[.keyword .DO, .keyword .END], by simp [fillers], by simp, _,
    by simpa [Spelling.word] using Statement.loop hc .nil⟩ ?_
  rintro do' mid₂ h₂ rfl
  have hmid₂ := (List.forall_mem_cons.1 hmid₁).2
  refine .bind (hblock _ _ (by omega) hmid₂) (fun used h => ?_) ?_
  · refine h.around [.keyword .END] (by simp [fillers]) (by simp; omega) ?_
    rintro ws ⟨ss, hss, _⟩
    exact ⟨_, by simpa [Spelling.word] using Statement.loop hc hss⟩
  intro body mid₃ h₃ hr
  obtain ⟨bs, rfl, hbody⟩ := blockAt_of_reads hr
  obtain ⟨hbs, hmid₃⟩ := List.forall_mem_append.1 hmid₂
  have hbody := hbody.statements fun t ht => (hbs t ht).proper
  refine ⟨bs, rfl, .next_keyword hmid₃ .END ⟨[.keyword .END], by simp [fillers], by simp, _,
    by simpa [Spelling.word] using Statement.loop hc hbody⟩ ?_⟩
  rintro stop mid₄ h₄ rfl
  exact .joined hlimit hstart.hi_le (List.forall_mem_cons.1 hmid₃).1.hi_le fun _ _ => .done

end Compound

mutual

theorem outcome_stmt (hlimit : limit ≤ Span.maxLength) {ts : List Lexeme}
    (hts : ∀ t ∈ ts, t.Sound limit) :
    Outcome finish ts [.stmt] OpensStmt (stmt finish ts) := by
  by_cases hk : ∃ k ∈ [Keyword.LET, .IF, .WHILE], ∃ span after, ts = ⟨.keyword k, span⟩ :: after
  · obtain ⟨k, hk, start, after, hcons⟩ := hk
    have hlt : after.length < ts.length := by simp [hcons]
    rw [hcons] at hts ⊢
    simp only [List.mem_cons, List.not_mem_nil, or_false] at hk
    rcases hk with rfl | rfl | rfl
    · obtain ⟨hstart, hafter⟩ := List.forall_mem_cons.1 hts
      rw [stmt]
      exact .take rfl (outcome_declaration hlimit hstart.hi_le hafter).relaxed
    · exact outcome_branch (fun stops us hus hs => outcome_block hlimit hs) hlimit hts
        fun us hus hs => outcome_otherwise hlimit hs
    · exact outcome_loop (fun stops us hus hs => outcome_block hlimit hs) hlimit hts
  · exact outcome_stmt_other hlimit hts fun k hk' span after hcons =>
      hk ⟨k, hk', span, after, hcons⟩
termination_by 2 * ts.length

theorem outcome_block (hlimit : limit ≤ Span.maxLength) {stops : List Keyword} {ts : List Lexeme}
    (hts : ∀ t ∈ ts, t.Sound limit) :
    Outcome finish ts [.block stops] OpensBlock (block finish stops ts) := by
  by_cases hstop : ts.isEmpty || startsWithAny stops ts
  · have hmove : (Goal.block stops).move (look ts) (look ts.tail) = .replace [] := by
      rw [Goal.move, stopsBlock_look, if_pos hstop]
    rw [block, if_pos hstop]
    exact .replace hmove .done
  · have hmove : (Goal.block stops).move (look ts) (look ts.tail) =
        .replace [.stmt, .block stops] := by
      rw [Goal.move, stopsBlock_look, if_neg hstop]
    rw [block, if_neg hstop]
    refine .replace hmove (.bind (outcome_stmt hlimit hts) (fun used h => ?_) ?_)
    · refine h.around [] (by simp) (by simp) ?_
      rintro ws ⟨s, hs⟩
      exact ⟨[s], by simpa using Statements.cons hs .nil, by simp⟩
    intro s mid hm hr
    have hlt := hr.shorter
    obtain ⟨us, rfl, hs⟩ := stmtAt_of_reads hr
    obtain ⟨hus, hmid⟩ := List.forall_mem_append.1 hts
    have hs := hs.statement fun t ht => (hus t ht).proper
    refine ⟨us, rfl, .bind (outcome_block hlimit hmid) (fun used h => ?_) ?_⟩
    · refine h.around [] (by simp) (by simp) ?_
      rintro ws ⟨ss, hss, _⟩
      exact ⟨_, by simpa using Statements.cons hs hss, by simp⟩
    · intro ss after hm' hr'
      obtain ⟨vs, rfl, -⟩ := blockAt_of_reads hr'
      exact ⟨vs, rfl, .done⟩
termination_by 2 * ts.length + 1

theorem outcome_otherwise (hlimit : limit ≤ Span.maxLength) {ts : List Lexeme}
    (hts : ∀ t ∈ ts, t.Sound limit) :
    Outcome finish ts [.otherwise] OpensElse (otherwise finish ts) := by
  cases hp : take? (.keyword .ELSE) ts with
  | none =>
    rw [otherwise]
    simp only [hp]
    exact .replace (if_neg (take?_eq_none_iff_look.1 hp)) .done
  | some p =>
    obtain ⟨start, rest, hlt⟩ := p
    have hcons := take?_eq_some_iff.1 hp
    rw [hcons] at hts ⊢
    have hrest := (List.forall_mem_cons.1 hts).2
    rw [otherwise]
    simp only [take?, if_true]
    refine .take rfl ((outcome_block hlimit hrest).mono fun used h => ?_).relaxed
    refine h.around [] (by simp) (by simp) ?_
    rintro ws ⟨ss, hss, _⟩
    exact ⟨ss, by simpa [Spelling.word] using Otherwise.some hss⟩
termination_by 2 * ts.length

end

end LetLang.Parser
