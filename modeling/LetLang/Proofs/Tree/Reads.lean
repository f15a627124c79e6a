import LetLang.Tree.Parser

/-!
What each reader reads. A reader returns its rest with a proof that it is shorter; `Reads` drops the
proof, and each reader has an equivalence that says from which lexemes it reads a value and where it
stops.
-/

namespace LetLang.Parser

variable {α β : Type} {m n : Nat}

def Reads (r : ParseResult α n) (a : α) (rest : List Lexeme) : Prop := ∃ h, r = .ok ⟨a, rest, h⟩

theorem reads_ok {a b : α} {ts rest : List Lexeme} {h : ts.length < n} :
    Reads (.ok ⟨a, ts, h⟩ : ParseResult α n) b rest ↔ b = a ∧ rest = ts := by
  refine ⟨?_, ?_⟩
  · rintro ⟨_, h⟩
    cases h
    exact ⟨rfl, rfl⟩
  · rintro ⟨rfl, rfl⟩
    exact ⟨h, rfl⟩

@[simp] theorem not_reads_error {f : Failure (Located ParseError)} {a : α} {rest : List Lexeme} :
    ¬ Reads (.error f : ParseResult α n) a rest := by
  rintro ⟨_, h⟩
  cases h

@[simp] theorem not_reads_failNext {finish : Span} {ts rest : List Lexeme}
    {e : TokenKind → ParseError} {a : α} :
    ¬ Reads (failNext finish ts e : ParseResult α n) a rest := by
  cases ts <;> exact not_reads_error

theorem Reads.unique {r : ParseResult α n} {a b : α} {rest rest' : List Lexeme}
    (h : Reads r a rest) (h' : Reads r b rest') : a = b ∧ rest = rest' := by
  obtain ⟨_, rfl⟩ := h
  exact (reads_ok.1 h').imp Eq.symm Eq.symm

theorem Reads.shorter {r : ParseResult α n} {a : α} {rest : List Lexeme} (h : Reads r a rest) :
    rest.length < n := h.1

/-- What is read next may depend on the value and the rest, but not on the bound. -/
theorem reads_bind {r : ParseResult α m} {f : Parsed α m → ParseResult β n} {b : β}
    {rest : List Lexeme} {P : α → List Lexeme → Prop}
    (h : ∀ a mid hm, Reads (f ⟨a, mid, hm⟩) b rest ↔ P a mid) :
    Reads (r >>= f) b rest ↔ ∃ a mid, Reads r a mid ∧ P a mid := by
  refine ⟨?_, ?_⟩
  · cases r with
    | ok p => exact fun hf => ⟨p.value, p.rest, ⟨p.shorter, rfl⟩, (h ..).1 hf⟩
    | error f => exact fun hf => absurd hf not_reads_error
  · rintro ⟨a, mid, ⟨hm, rfl⟩, hP⟩
    exact (h a mid hm).2 hP

/-- A reader whose bound is relaxed reads the same. -/
theorem reads_relaxed {r : ParseResult α m} {b : α} {rest : List Lexeme}
    {hn : ∀ p : Parsed α m, p.rest.length < n} :
    Reads (r >>= fun p => (.ok ⟨p.value, p.rest, hn p⟩ : ParseResult α n)) b rest ↔
      Reads r b rest := by
  refine Iff.trans (reads_bind (P := fun a mid => b = a ∧ rest = mid) fun a mid hm => ?_) ?_
  · exact reads_ok
  · simp

theorem reads_joined {s s' : Span} {f : Span → ParseResult β n} {b : β} {rest : List Lexeme} :
    Reads (joined s s' >>= f) b rest ↔ ∃ span, s.join? s' = some span ∧ Reads (f span) b rest := by
  unfold joined
  cases s.join? s' with
  | none =>
    refine ⟨fun h => absurd h not_reads_error, ?_⟩
    rintro ⟨_, h, -⟩
    cases h
  | some span => simp [Result.ofOption, bind, Except.bind]

/-- The value alone, whatever the rest. -/
theorem value_eq_ok_iff {r : ParseResult α n} {a : α} :
    (r >>= fun p => (.ok p.value : Result (Located ParseError) α)) = .ok a ↔ ∃ rest, Reads r a rest := by
  cases r with
  | ok p =>
    refine ⟨?_, ?_⟩
    · intro h
      cases h
      exact ⟨p.rest, p.shorter, rfl⟩
    · rintro ⟨rest, _, h⟩
      cases h
      rfl
  | error f =>
    refine ⟨?_, ?_⟩
    · intro h
      cases h
    · rintro ⟨rest, h⟩
      exact absurd h not_reads_error

/-! One lexeme. -/

theorem take?_eq_some_iff {s : Spelling} {ts rest : List Lexeme} {span : Span}
    {h : rest.length < ts.length} :
    take? s ts = some ⟨span, rest, h⟩ ↔ ts = ⟨s, span⟩ :: rest := by
  cases ts with
  | nil => simp [take?]
  | cons t ts =>
    obtain ⟨spelling, at'⟩ := t
    simp only [take?, Lexeme.mk.injEq, List.cons.injEq]
    split <;> simp_all

theorem take?_eq_none_iff {s : Spelling} {ts : List Lexeme} :
    take? s ts = none ↔ ∀ span rest, ts ≠ ⟨s, span⟩ :: rest := by
  cases ts with
  | nil => simp [take?]
  | cons t ts =>
    obtain ⟨spelling, at'⟩ := t
    simp [take?]

theorem reads_take {s : Spelling} {ts rest : List Lexeme} {span : Span}
    {other : ParseResult Span ts.length} (ho : ¬ Reads other span rest) :
    Reads (match take? s ts with
      | some p => .ok p
      | none => other) span rest ↔ ts = ⟨s, span⟩ :: rest := by
  cases ht : take? s ts with
  | none => simp [ho, take?_eq_none_iff.1 ht]
  | some p =>
    obtain ⟨span', rest', h⟩ := p
    rw [reads_ok, take?_eq_some_iff.1 ht]
    simp [eq_comm]

variable {finish : Span} {ts rest : List Lexeme}

theorem reads_mark {k : Mark} {span : Span} :
    Reads (mark finish k ts) span rest ↔ ts = ⟨.mark k, span⟩ :: rest :=
  reads_take not_reads_failNext

theorem reads_keyword {k : Keyword} {span : Span} :
    Reads (keyword finish k ts) span rest ↔ ts = ⟨.keyword k, span⟩ :: rest := by
  refine reads_take ?_
  split
  · exact not_reads_error
  · exact not_reads_failNext

theorem reads_groupEnd {span : Span} :
    Reads (groupEnd finish ts) span rest ↔ ts = ⟨.mark .closing, span⟩ :: rest :=
  reads_take not_reads_failNext

theorem reads_ident {x : Ident} :
    Reads (ident finish ts) x rest ↔ ts = ⟨.name x.name, x.span⟩ :: rest := by
  obtain ⟨name, span⟩ := x
  match ts with
  | [] => simp [ident]
  | t :: ts =>
    obtain ⟨spelling, span'⟩ := t
    cases spelling with
    | name text =>
      simp only [ident, reads_ok, Ident.mk.injEq, List.cons.injEq, Lexeme.mk.injEq,
        Spelling.name.injEq]
      grind
    | keyword k => simp [ident, failAt]
    | unreadable k => cases k <;> simp [ident]
    | _ => simp [ident]

theorem reads_argumentEnd {close? : Option Span} :
    Reads (argumentEnd finish ts) close? rest ↔
      (∃ span, close? = none ∧ ts = ⟨.mark .comma, span⟩ :: rest) ∨
        ∃ span, close? = some span ∧ ts = ⟨.mark .closing, span⟩ :: rest := by
  unfold argumentEnd
  split
  · next p hp =>
    obtain ⟨span, rest', h⟩ := p
    obtain rfl := take?_eq_some_iff.1 hp
    simp [reads_ok, eq_comm]
  · next p _ hp =>
    obtain ⟨span, rest', h⟩ := p
    obtain rfl := take?_eq_some_iff.1 hp
    simp only [reads_ok, List.cons.injEq, Lexeme.mk.injEq]
    grind
  · next hc hp => simp [take?_eq_none_iff.1 hc, take?_eq_none_iff.1 hp]

/-! Expressions. -/

/-- No operator that holds the operand before it with at least `power`. -/
def Stops (power : Nat) (ts : List Lexeme) : Prop :=
  ∀ t rest op, ts = t :: rest → operator? t.spelling = some op → op.leftPower < power

theorem reads_expr {power : Nat} {e : Expr .parsed} :
    Reads (expr finish power ts) e rest ↔
      ∃ lhs mid, Reads (operand finish ts) lhs mid ∧
        Reads (operators finish power lhs mid) e rest := by
  rw [expr]
  exact reads_bind fun lhs mid _ => reads_relaxed

theorem reads_operators_stop {power : Nat} {lhs : Expr .parsed} (h : Stops power ts) :
    Reads (operators finish power lhs ts) lhs ts := by
  match ts with
  | [] =>
    rw [operators]
    exact reads_ok.2 ⟨rfl, rfl⟩
  | t :: ts =>
    rw [operators]
    split
    · exact reads_ok.2 ⟨rfl, rfl⟩
    · next op hop =>
      rw [if_pos (h t ts op rfl hop)]
      exact reads_ok.2 ⟨rfl, rfl⟩

theorem not_stops_iff {power : Nat} :
    ¬ Stops power ts ↔ ∃ t after op, ts = t :: after ∧ operator? t.spelling = some op ∧
      power ≤ op.leftPower := by
  simp only [Stops, Classical.not_forall, Nat.not_lt, exists_prop]

theorem reads_operators_cons {power : Nat} {lhs e : Expr .parsed} {t : Lexeme} {op : Operator}
    (hop : operator? t.spelling = some op) (hp : power ≤ op.leftPower) :
    Reads (operators finish power lhs (t :: ts)) e rest ↔
      ∃ rhs mid, Reads (expr finish op.rightPower ts) rhs mid ∧
        ∃ span, lhs.span.join? rhs.span = some span ∧
          Reads (operators finish power (.binary op lhs rhs span ()) mid) e rest := by
  rw [operators]
  simp only [hop]
  rw [if_neg (Nat.not_lt.2 hp)]
  refine reads_bind fun rhs mid _ => ?_
  exact reads_joined.trans (exists_congr fun span => and_congr_right fun _ => reads_relaxed)

/-- The literal that a lexeme stands for. -/
def literal? : Spelling → Option RawLiteral
  | .keyword .TRUE => some (.bool true)
  | .keyword .FALSE => some (.bool false)
  | .integer digits => some (.integer digits)
  | .decimal digits => some (.decimal digits)
  | .string contents => some (.string contents)
  | _ => none

theorem reads_operand_literal {t : Lexeme} {value : RawLiteral} {e : Expr .parsed}
    (h : literal? t.spelling = some value) :
    Reads (operand finish (t :: ts)) e rest ↔ e = .literal value t.span () ∧ rest = ts := by
  obtain ⟨spelling, span⟩ := t
  rw [operand]
  cases spelling with
  | keyword k => cases k <;> cases h <;> exact reads_ok
  | name text => cases h
  | mark m => cases h
  | unreadable k => cases h
  | _ => cases h; exact reads_ok

theorem reads_operand_var {x : String} {span : Span} {e : Expr .parsed}
    (h : take? (.mark .opening) ts = none) :
    Reads (operand finish (⟨.name x, span⟩ :: ts)) e rest ↔
      e = .var ⟨x, span⟩ span () ∧ rest = ts := by
  rw [operand]
  simp only [h, reads_ok]

theorem reads_operand_call {x : String} {span opening : Span} {e : Expr .parsed} :
    Reads (operand finish (⟨.name x, span⟩ :: ⟨.mark .opening, opening⟩ :: ts)) e rest ↔
      ∃ args mid, Reads (arguments finish ts) args mid ∧
        ∃ whole, span.join? args.2 = some whole ∧
          e = .call ⟨x, span⟩ args.1 () whole () ∧ rest = mid := by
  rw [operand]
  simp only [take?, if_true]
  refine reads_bind fun args mid _ => ?_
  exact reads_joined.trans (exists_congr fun whole => and_congr_right fun _ => reads_ok)

theorem reads_operand_group {span : Span} {e : Expr .parsed} :
    Reads (operand finish (⟨.mark .opening, span⟩ :: ts)) e rest ↔
      ∃ inner mid, Reads (expr finish 0 ts) inner mid ∧
        ∃ close after, mid = ⟨.mark .closing, close⟩ :: after ∧
          ∃ whole, span.join? close = some whole ∧ e = .group inner whole () ∧ rest = after := by
  rw [operand]
  refine reads_bind fun inner mid _ => ?_
  refine (reads_bind fun close after _ => ?_).trans (exists₂_congr fun close after => 
    and_congr_left fun _ => reads_groupEnd)
  exact reads_joined.trans (exists_congr fun whole => and_congr_right fun _ => reads_ok)

/-- An operand starts with a literal, a name or a parenthesis. -/
theorem exists_of_reads_operand {e : Expr .parsed} (h : Reads (operand finish ts) e rest) :
    ∃ t after, ts = t :: after ∧ ((∃ value, literal? t.spelling = some value) ∨
      (∃ x, t.spelling = .name x) ∨ t.spelling = .mark .opening) := by
  match ts with
  | [] => 
    rw [operand] at h
    exact absurd h not_reads_failNext
  | ⟨spelling, span⟩ :: ts =>
    refine ⟨_, _, rfl, ?_⟩
    rw [operand] at h
    cases spelling with
    | keyword k => cases k <;> first | exact .inl ⟨_, rfl⟩ | exact absurd h not_reads_error
    | name text => exact .inr (.inl ⟨text, rfl⟩)
    | mark m => cases m <;> first | exact .inr (.inr rfl) | exact absurd h not_reads_error
    | unreadable k => exact absurd h not_reads_error
    | _ => exact .inl ⟨_, rfl⟩

theorem reads_arguments_nil {args : List (Expr .parsed) × Span} {close : Span} :
    Reads (arguments finish (⟨.mark .closing, close⟩ :: ts)) args rest ↔
      args = ([], close) ∧ rest = ts := by
  rw [arguments]
  simp only [take?, if_true, reads_ok]

theorem reads_arguments_cons {args : List (Expr .parsed) × Span}
    (h : take? (.mark .closing) ts = none) :
    Reads (arguments finish ts) args rest ↔ Reads (argumentsFrom finish ts) args rest := by
  rw [arguments]
  simp only [h]

theorem reads_argumentsFrom {args : List (Expr .parsed) × Span} :
    Reads (argumentsFrom finish ts) args rest ↔
      ∃ arg mid, Reads (expr finish 0 ts) arg mid ∧
        ((∃ close, mid = ⟨.mark .closing, close⟩ :: rest ∧ args = ([arg], close)) ∨
          ∃ comma after, mid = ⟨.mark .comma, comma⟩ :: after ∧
            ∃ more, Reads (argumentsFrom finish after) more rest ∧
              args = (arg :: more.1, more.2)) := by
  rw [argumentsFrom]
  refine reads_bind fun arg mid _ => ?_
  refine Iff.trans (reads_bind (P := fun close? after =>
    close?.elim
      (∃ more, Reads (argumentsFrom finish after) more rest ∧ args = (arg :: more.1, more.2))
      fun close => args = ([arg], close) ∧ rest = after) fun close? after _ => ?_) ?_
  · cases close? with
    | some close => exact reads_ok
    | none =>
      refine Iff.trans (reads_bind (P := fun more mid =>
        args = (arg :: more.1, more.2) ∧ rest = mid) fun more mid _ => ?_) ?_
      · exact reads_ok
      · refine ⟨?_, ?_⟩
        · rintro ⟨more, _, h, hargs, rfl⟩
          exact ⟨more, h, hargs⟩
        · rintro ⟨more, h, hargs⟩
          exact ⟨more, _, h, hargs, rfl⟩
  · simp only [reads_argumentEnd]
    refine ⟨?_, ?_⟩
    · rintro ⟨_, after, ⟨comma, rfl, rfl⟩ | ⟨close, rfl, rfl⟩, h⟩
      · exact .inr ⟨comma, after, rfl, h⟩
      · exact .inl ⟨close, by rw [h.2], h.1⟩
    · rintro (⟨close, rfl, h⟩ | ⟨comma, after, rfl, h⟩)
      · exact ⟨_, rest, .inr ⟨close, rfl, rfl⟩, h, rfl⟩
      · exact ⟨_, after, .inl ⟨comma, rfl, rfl⟩, h⟩

/-! Statements. -/

theorem reads_initializer_none (h : take? (.mark .assign) ts = none) :
    Reads (initializer finish ts) none ts := by
  unfold initializer
  simp only [h]
  exact reads_ok.2 ⟨rfl, rfl⟩

theorem reads_initializer_some {span : Span} {initial : Option (Expr .parsed)} :
    Reads (initializer finish (⟨.mark .assign, span⟩ :: ts)) initial rest ↔
      ∃ e mid, Reads (expr finish 0 ts) e mid ∧ initial = some e ∧ rest = mid := by
  unfold initializer
  simp only [take?, if_true]
  exact reads_bind fun e mid _ => reads_ok

theorem reads_declaration {start : Span} {s : Stmt .parsed} :
    Reads (declaration finish start ts) s rest ↔
      ∃ name mid₁, Reads (ident finish ts) name mid₁ ∧
      ∃ colon mid₂, Reads (mark finish .colon mid₁) colon mid₂ ∧
      ∃ ty mid₃, Reads (ident finish mid₂) ty mid₃ ∧
      ∃ initial mid₄, Reads (initializer finish mid₃) initial mid₄ ∧
      ∃ stop mid₅, Reads (mark finish .semicolon mid₄) stop mid₅ ∧
      ∃ span, start.join? stop = some span ∧
        s = .declaration name ty initial span ∧ rest = mid₅ := by
  unfold declaration
  refine reads_bind fun _ _ _ => reads_bind fun _ _ _ => reads_bind fun _ _ _ =>
    reads_bind fun _ _ _ => reads_bind fun _ _ _ => ?_
  exact reads_joined.trans (exists_congr fun span => and_congr_right fun _ => reads_ok)

theorem reads_assignment {s : Stmt .parsed} :
    Reads (assignment finish ts) s rest ↔
      ∃ target mid₁, Reads (ident finish ts) target mid₁ ∧
      ∃ assign mid₂, Reads (mark finish .assign mid₁) assign mid₂ ∧
      ∃ value mid₃, Reads (expr finish 0 mid₂) value mid₃ ∧
      ∃ stop mid₄, Reads (mark finish .semicolon mid₃) stop mid₄ ∧
      ∃ span, target.span.join? stop = some span ∧
        s = .assignment target value span ∧ rest = mid₄ := by
  unfold assignment
  refine reads_bind fun _ _ _ => reads_bind fun _ _ _ => reads_bind fun _ _ _ =>
    reads_bind fun _ _ _ => ?_
  exact reads_joined.trans (exists_congr fun span => and_congr_right fun _ => reads_ok)

theorem reads_exprStmt {s : Stmt .parsed} :
    Reads (exprStmt finish ts) s rest ↔
      ∃ value mid₁, Reads (expr finish 0 ts) value mid₁ ∧
      ∃ stop mid₂, Reads (mark finish .semicolon mid₁) stop mid₂ ∧
      ∃ span, value.span.join? stop = some span ∧ s = .expr value span ∧ rest = mid₂ := by
  unfold exprStmt
  refine reads_bind fun _ _ _ => reads_bind fun _ _ _ => ?_
  exact reads_joined.trans (exists_congr fun span => and_congr_right fun _ => reads_ok)

theorem reads_stmt_LET {start : Span} {s : Stmt .parsed} :
    Reads (stmt finish (⟨.keyword .LET, start⟩ :: ts)) s rest ↔
      Reads (declaration finish start ts) s rest := by
  rw [stmt]
  exact reads_relaxed

theorem reads_stmt_IF {start : Span} {s : Stmt .parsed} :
    Reads (stmt finish (⟨.keyword .IF, start⟩ :: ts)) s rest ↔
      ∃ condition mid₁, Reads (expr finish 0 ts) condition mid₁ ∧
      ∃ then' mid₂, Reads (keyword finish .THEN mid₁) then' mid₂ ∧
      ∃ yes mid₃, Reads (block finish [.ELSE, .END] mid₂) yes mid₃ ∧
      ∃ no mid₄, Reads (otherwise finish mid₃) no mid₄ ∧
      ∃ stop mid₅, Reads (keyword finish .END mid₄) stop mid₅ ∧
      ∃ span, start.join? stop = some span ∧
        s = .branch condition yes no span ∧ rest = mid₅ := by
  rw [stmt]
  refine reads_bind fun _ _ _ => reads_bind fun _ _ _ => reads_bind fun _ _ _ =>
    reads_bind fun _ _ _ => reads_bind fun _ _ _ => ?_
  exact reads_joined.trans (exists_congr fun span => and_congr_right fun _ => reads_ok)

theorem reads_stmt_WHILE {start : Span} {s : Stmt .parsed} :
    Reads (stmt finish (⟨.keyword .WHILE, start⟩ :: ts)) s rest ↔
      ∃ condition mid₁, Reads (expr finish 0 ts) condition mid₁ ∧
      ∃ do' mid₂, Reads (keyword finish .DO mid₁) do' mid₂ ∧
      ∃ body mid₃, Reads (block finish [.END] mid₂) body mid₃ ∧
      ∃ stop mid₄, Reads (keyword finish .END mid₃) stop mid₄ ∧
      ∃ span, start.join? stop = some span ∧ s = .loop condition body span ∧ rest = mid₄ := by
  rw [stmt]
  refine reads_bind fun _ _ _ => reads_bind fun _ _ _ => reads_bind fun _ _ _ =>
    reads_bind fun _ _ _ => ?_
  exact reads_joined.trans (exists_congr fun span => and_congr_right fun _ => reads_ok)

/-- A statement that no keyword announces. -/
theorem reads_stmt_other {s : Stmt .parsed}
    (h : ∀ k ∈ [Keyword.LET, .IF, .WHILE], ∀ span after, ts ≠ ⟨.keyword k, span⟩ :: after)
    (hu : ∀ span after, ts ≠ ⟨.unreadable .identifier, span⟩ :: after) :
    Reads (stmt finish ts) s rest ↔
      if startsAssignment ts then Reads (assignment finish ts) s rest
      else Reads (exprStmt finish ts) s rest := by
  rw [stmt]
  · split <;> rfl
  · exact h .LET (by simp)
  · exact h .IF (by simp)
  · exact h .WHILE (by simp)
  · exact hu

theorem not_reads_stmt_unreadable {span : Span} {s : Stmt .parsed} :
    ¬ Reads (stmt finish (⟨.unreadable .identifier, span⟩ :: ts)) s rest := by
  rw [stmt]
  exact not_reads_error

theorem reads_block_stop {stops : List Keyword} {ss : Block .parsed}
    (h : ts.isEmpty || startsWithAny stops ts) :
    Reads (block finish stops ts) ss rest ↔ ss = [] ∧ rest = ts := by
  rw [block, if_pos h]
  exact reads_ok

theorem reads_block_cons {stops : List Keyword} {ss : Block .parsed}
    (h : ¬ (ts.isEmpty || startsWithAny stops ts)) :
    Reads (block finish stops ts) ss rest ↔
      ∃ s mid, Reads (stmt finish ts) s mid ∧
      ∃ more after, Reads (block finish stops mid) more after ∧ ss = s :: more ∧ rest = after := by
  rw [block, if_neg h]
  exact reads_bind fun _ _ _ => reads_bind fun _ _ _ => reads_ok

theorem reads_otherwise_none (h : take? (.keyword .ELSE) ts = none) {no : Block .parsed} :
    Reads (otherwise finish ts) no rest ↔ no = [] ∧ rest = ts := by
  rw [otherwise]
  simp only [h]
  exact reads_ok

theorem reads_otherwise_some {span : Span} {no : Block .parsed} :
    Reads (otherwise finish (⟨.keyword .ELSE, span⟩ :: ts)) no rest ↔
      Reads (block finish [.END] ts) no rest := by
  rw [otherwise]
  simp only [take?, if_true]
  exact reads_relaxed

end LetLang.Parser
