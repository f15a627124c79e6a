import LetLang.Proofs.Tree.Grammar
import LetLang.Proofs.Tree.Reads

/-!
Derivations that know their places. They relate stretches of lexemes to trees with spans: a leaf
has the span of its lexeme, and a node with several parts the join of its first and its last.
Without the places they are the derivations of the grammar, and every derivation of the grammar can
be placed on lexemes that say its words.
-/

namespace LetLang

open Parser (literal?)

mutual

/-- The lexemes of an expression of a layer. -/
inductive ExprAt : Nat → List Lexeme → Expr .parsed → Prop
  | chain {op : Operator} {n : Nat} {ls rs : List Lexeme} {l r : Expr .parsed} {here span : Span} :
      op.layer = n → ExprAt n ls l → ExprAt (n + 1) rs r → l.span.join? r.span = some span →
      ExprAt n (ls ++ ⟨.mark op.mark, here⟩ :: rs) (.binary op l r span ())
  | tighter {n : Nat} {ts : List Lexeme} {e : Expr .parsed} : ExprAt (n + 1) ts e → ExprAt n ts e
  | literal {t : Lexeme} {value : RawLiteral} :
      literal? t.spelling = some value → ExprAt 3 [t] (.literal value t.span ())
  | var {x : String} {span : Span} : ExprAt 3 [⟨.name x, span⟩] (.var ⟨x, span⟩ span ())
  | call {x : String} {span opening close whole : Span} {ts : List Lexeme}
      {args : List (Expr .parsed)} :
      ArgumentsAt ts args → span.join? close = some whole →
      ExprAt 3 (⟨.name x, span⟩ :: ⟨.mark .opening, opening⟩ :: (ts ++ [⟨.mark .closing, close⟩]))
        (.call ⟨x, span⟩ args () whole ())
  | group {span close whole : Span} {ts : List Lexeme} {e : Expr .parsed} :
      ExprAt 0 ts e → span.join? close = some whole →
      ExprAt 3 (⟨.mark .opening, span⟩ :: (ts ++ [⟨.mark .closing, close⟩])) (.group e whole ())

/-- The lexemes between the parentheses of a call. -/
inductive ArgumentsAt : List Lexeme → List (Expr .parsed) → Prop
  | nil : ArgumentsAt [] []
  | last {ts : List Lexeme} {e : Expr .parsed} : ExprAt 0 ts e → ArgumentsAt ts [e]
  | more {ts us : List Lexeme} {comma : Span} {e e' : Expr .parsed} {es : List (Expr .parsed)} :
      ExprAt 0 ts e → ArgumentsAt us (e' :: es) →
      ArgumentsAt (ts ++ ⟨.mark .comma, comma⟩ :: us) (e :: e' :: es)

end

/-- The lexemes between the type of a declaration and its semicolon. -/
inductive InitialAt : List Lexeme → Option (Expr .parsed) → Prop
  | none : InitialAt [] none
  | some {assign : Span} {ts : List Lexeme} {e : Expr .parsed} :
      ExprAt 0 ts e → InitialAt (⟨.mark .assign, assign⟩ :: ts) (some e)

mutual

inductive StmtAt : List Lexeme → Stmt .parsed → Prop
  | expr {ts : List Lexeme} {e : Expr .parsed} {stop span : Span} :
      ExprAt 0 ts e → e.span.join? stop = some span →
      StmtAt (ts ++ [⟨.mark .semicolon, stop⟩]) (.expr e span)
  | declaration {x ty : String} {start here colon there stop span : Span} {ts : List Lexeme}
      {initial : Option (Expr .parsed)} :
      InitialAt ts initial → start.join? stop = some span →
      StmtAt (⟨.keyword .LET, start⟩ :: ⟨.name x, here⟩ :: ⟨.mark .colon, colon⟩ ::
        ⟨.name ty, there⟩ :: (ts ++ [⟨.mark .semicolon, stop⟩]))
        (.declaration ⟨x, here⟩ ⟨ty, there⟩ initial span)
  | assignment {x : String} {here assign stop span : Span} {ts : List Lexeme} {e : Expr .parsed} :
      ExprAt 0 ts e → here.join? stop = some span →
      StmtAt (⟨.name x, here⟩ :: ⟨.mark .assign, assign⟩ :: (ts ++ [⟨.mark .semicolon, stop⟩]))
        (.assignment ⟨x, here⟩ e span)
  | branch {start then' stop span : Span} {cs ys ns : List Lexeme} {c : Expr .parsed}
      {yes no : Block .parsed} :
      ExprAt 0 cs c → BlockAt ys yes → ElseAt ns no → start.join? stop = some span →
      StmtAt (⟨.keyword .IF, start⟩ :: (cs ++ ⟨.keyword .THEN, then'⟩ ::
        (ys ++ (ns ++ [⟨.keyword .END, stop⟩])))) (.branch c yes no span)
  | loop {start do' stop span : Span} {cs bs : List Lexeme} {c : Expr .parsed}
      {body : Block .parsed} :
      ExprAt 0 cs c → BlockAt bs body → start.join? stop = some span →
      StmtAt (⟨.keyword .WHILE, start⟩ :: (cs ++ ⟨.keyword .DO, do'⟩ ::
        (bs ++ [⟨.keyword .END, stop⟩]))) (.loop c body span)

inductive ElseAt : List Lexeme → Block .parsed → Prop
  | none : ElseAt [] []
  | some {start : Span} {ts : List Lexeme} {ss : Block .parsed} :
      BlockAt ts ss → ElseAt (⟨.keyword .ELSE, start⟩ :: ts) ss

inductive BlockAt : List Lexeme → Block .parsed → Prop
  | nil : BlockAt [] []
  | cons {ts us : List Lexeme} {s : Stmt .parsed} {ss : Block .parsed} :
      StmtAt ts s → BlockAt us ss → BlockAt (ts ++ us) (s :: ss)

end

theorem Span.join?_of_hi_le {limit : Nat} (hlimit : limit ≤ maxLength) {a b : Span}
    (ha : a.hi ≤ limit) (hb : b.hi ≤ limit) : ∃ s, a.join? b = some s ∧ s.hi ≤ limit := by
  have hle : min a.lo b.lo ≤ max a.hi b.hi := by
    simp only [Span.hi]
    omega
  have hhi : max a.hi b.hi ≤ limit := Nat.max_le.2 ⟨ha, hb⟩
  obtain ⟨n, hn⟩ := Nat.exists_eq_add_of_le hle
  have hs : (⟨min a.lo b.lo, n⟩ : Span).hi ≤ limit := by
    simp only [Span.hi]
    omega
  exact ⟨_, by rw [join?, hn, ofBounds?_add, if_pos (fits_of_hi_le (Nat.le_trans hs hlimit))], hs⟩

theorem Span.hi_of_join? {a b s : Span} (h : a.join? b = some s) : s.hi = max a.hi b.hi :=
  (ofBounds?_eq_some_iff.1 h).2.1

theorem ExprAt.hi_le {limit n : Nat} {ts : List Lexeme} {e : Expr .parsed} :
    ExprAt n ts e → (∀ t ∈ ts, t.span.hi ≤ limit) → e.span.hi ≤ limit
  | .tighter h, hts => h.hi_le hts
  | .chain _ hl hr hjoin, hts => by
    obtain ⟨hls, hrs⟩ := List.forall_mem_append.1 hts
    rw [Expr.span, Span.hi_of_join? hjoin]
    exact Nat.max_le.2 ⟨hl.hi_le hls, hr.hi_le (List.forall_mem_cons.1 hrs).2⟩
  | .literal _, hts => (List.forall_mem_cons.1 hts).1
  | .var, hts => (List.forall_mem_cons.1 hts).1
  | .call _ hjoin, hts => by
    simp only [List.forall_mem_cons, List.forall_mem_append] at hts
    rw [Expr.span, Span.hi_of_join? hjoin]
    exact Nat.max_le.2 ⟨hts.1, hts.2.2.2.1⟩
  | .group _ hjoin, hts => by
    simp only [List.forall_mem_cons, List.forall_mem_append] at hts
    rw [Expr.span, Span.hi_of_join? hjoin]
    exact Nat.max_le.2 ⟨hts.1, hts.2.2.1⟩

theorem ExprAt.mono {m n : Nat} {ts : List Lexeme} {e : Expr .parsed} (h : ExprAt n ts e)
    (hm : m ≤ n) : ExprAt m ts e := by
  induction hm with
  | refl => exact h
  | step _ ih => exact ih h.tighter

/-! The places left out. -/

/-- Names are no keywords, and nothing is unreadable. -/
def Proper (ts : List Lexeme) : Prop := ∀ t ∈ ts, t.spelling.Proper

theorem proper_append {ts us : List Lexeme} : Proper (ts ++ us) ↔ Proper ts ∧ Proper us :=
  List.forall_mem_append

theorem proper_cons {t : Lexeme} {ts : List Lexeme} :
    Proper (t :: ts) ↔ t.spelling.Proper ∧ Proper ts := List.forall_mem_cons

open Grammar

theorem primary_of_literal? {s : Spelling} {value : RawLiteral} (h : literal? s = some value) :
    Primary [s.word] (.literal value) := by
  unfold literal? at h
  split at h <;> cases h <;> constructor

mutual

theorem ExprAt.layer {n : Nat} {ts : List Lexeme} {e : Expr .parsed} :
    ExprAt n ts e → Proper ts → Layer n (wordsOf ts) e.bare
  | .chain hop hl hr _, hts => by
    obtain ⟨hls, hrs⟩ := proper_append.1 hts
    simp only [wordsOf_append, wordsOf_cons, Expr.bare]
    exact .chain hop (hl.layer hls) (hr.layer (proper_cons.1 hrs).2)
  | .tighter h, hts => .tighter (h.layer hts)
  | .literal hv, _ => by
    simp only [wordsOf_cons, wordsOf_nil, Expr.bare]
    exact .primary (primary_of_literal? hv)
  | .var, hts => .primary (.var (proper_cons.1 hts).1)
  | .call hargs _, hts => by
    obtain ⟨hx, hts⟩ := proper_cons.1 hts
    obtain ⟨hts, -⟩ := proper_append.1 (proper_cons.1 hts).2
    simp only [wordsOf_append, wordsOf_cons, wordsOf_nil, Expr.bare]
    exact .primary (.call hx (hargs.arguments hts))
  | .group h _, hts => by
    obtain ⟨hts, -⟩ := proper_append.1 (proper_cons.1 hts).2
    simp only [wordsOf_append, wordsOf_cons, wordsOf_nil, Expr.bare]
    exact .primary (.group (h.layer hts))

theorem ArgumentsAt.arguments {ts : List Lexeme} {es : List (Expr .parsed)} :
    ArgumentsAt ts es → Proper ts → Arguments (wordsOf ts) (Expr.bareAll es)
  | .nil, _ => .none
  | .last h, hts => .some (.last (h.layer hts))
  | @ArgumentsAt.more _ us _ _ _ _ h hmore, hts => by
    obtain ⟨hts, hus⟩ := proper_append.1 hts
    have hmore := hmore.arguments (proper_cons.1 hus).2
    simp only [wordsOf_append, wordsOf_cons, Expr.bareAll] at hmore ⊢
    generalize wordsOf us = ws at hmore ⊢
    cases hmore with
    | some hlist => exact .some (.more (h.layer hts) hlist)

end

theorem InitialAt.initializer {ts : List Lexeme} {initial : Option (Expr .parsed)}
    (h : InitialAt ts initial) (hts : Proper ts) :
    Initializer (wordsOf ts) (initial.map Expr.bare) := by
  cases h with
  | none => exact .none
  | some h => exact .some (h.layer (proper_cons.1 hts).2)

mutual

theorem StmtAt.statement {ts : List Lexeme} {s : Stmt .parsed} :
    StmtAt ts s → Proper ts → Statement (wordsOf ts) s.bare
  | .expr h _, hts => by
    simp only [wordsOf_append, wordsOf_cons, wordsOf_nil, Stmt.bare]
    exact .expr (h.layer (proper_append.1 hts).1)
  | .declaration h _, hts => by
    simp only [proper_cons, proper_append] at hts
    simp only [wordsOf_append, wordsOf_cons, wordsOf_nil, Stmt.bare]
    exact .declaration hts.2.1 hts.2.2.2.1 (h.initializer hts.2.2.2.2.1)
  | .assignment h _, hts => by
    simp only [proper_cons, proper_append] at hts
    simp only [wordsOf_append, wordsOf_cons, wordsOf_nil, Stmt.bare]
    exact .assignment hts.1 (h.layer hts.2.2.1)
  | .branch hc hyes hno _, hts => by
    simp only [proper_cons, proper_append] at hts
    simp only [wordsOf_append, wordsOf_cons, wordsOf_nil, Stmt.bare]
    exact .branch (hc.layer hts.2.1) (hyes.statements hts.2.2.2.1) (hno.otherwise hts.2.2.2.2.1)
  | .loop hc hbody _, hts => by
    simp only [proper_cons, proper_append] at hts
    simp only [wordsOf_append, wordsOf_cons, wordsOf_nil, Stmt.bare]
    exact .loop (hc.layer hts.2.1) (hbody.statements hts.2.2.2.1)

theorem ElseAt.otherwise {ts : List Lexeme} {ss : Block .parsed} :
    ElseAt ts ss → Proper ts → Otherwise (wordsOf ts) (Stmt.bareAll ss)
  | .none, _ => .none
  | .some h, hts => .some (h.statements (proper_cons.1 hts).2)

theorem BlockAt.statements {ts : List Lexeme} {ss : Block .parsed} :
    BlockAt ts ss → Proper ts → Statements (wordsOf ts) (Stmt.bareAll ss)
  | .nil, _ => .nil
  | .cons h hss, hts => by
    obtain ⟨hts, hus⟩ := proper_append.1 hts
    rw [wordsOf_append]
    exact .cons (h.statement hts) (hss.statements hus)

end

/-! Places found for a derivation. -/

section Placing

variable {limit : Nat}

theorem exists_literalAt {s : Spelling} {value : RawLiteral} {ts rest : List Lexeme}
    (hs : s.Proper) (hv : literal? s = some value) (hb : Begins limit ts [s.word] rest) :
    ∃ us e', ts = us ++ rest ∧ ExprAt 3 us e' ∧ e'.bare = .literal value ∧ e'.span.hi ≤ limit := by
  obtain ⟨span, us, rfl, hhi, hb⟩ := (Begins.cons_iff hs).1 hb
  obtain rfl := Begins.nil_iff.1 hb
  exact ⟨[⟨s, span⟩], _, rfl, .literal (t := ⟨s, span⟩) hv, rfl, hhi⟩

mutual

theorem exists_exprAt (hlimit : limit ≤ Span.maxLength) {n : Nat} {ts rest : List Lexeme}
    {ws : List Word} {e : Bare.Expr} : Layer n ws e → Begins limit ts ws rest →
    ∃ us e', ts = us ++ rest ∧ ExprAt n us e' ∧ e'.bare = e ∧ e'.span.hi ≤ limit
  | .primary hp, hb => exists_primaryAt hlimit hp hb
  | .tighter hl, hb => by
    obtain ⟨us, e', rfl, he, hbare, hhi⟩ := exists_exprAt hlimit hl hb
    exact ⟨us, e', rfl, he.tighter, hbare, hhi⟩
  | @Layer.chain op _ _ _ _ _ hop hl hr, hb => by
    obtain ⟨mid, hb₁, hb⟩ := Begins.append_iff.1 hb
    obtain ⟨here, mid', rfl, -, hb₂⟩ := (Begins.cons_iff (s := .mark op.mark) trivial).1 hb
    obtain ⟨ls, l', rfl, hl', rfl, hhi⟩ := exists_exprAt hlimit hl hb₁
    obtain ⟨rs, r', rfl, hr', rfl, hhi'⟩ := exists_exprAt hlimit hr hb₂
    obtain ⟨whole, hjoin, hwhole⟩ := Span.join?_of_hi_le hlimit hhi hhi'
    exact ⟨ls ++ ⟨.mark op.mark, here⟩ :: rs, _, by simp, .chain hop hl' hr' hjoin, rfl, hwhole⟩

theorem exists_primaryAt (hlimit : limit ≤ Span.maxLength) {ts rest : List Lexeme}
    {ws : List Word} {e : Bare.Expr} : Primary ws e → Begins limit ts ws rest →
    ∃ us e', ts = us ++ rest ∧ ExprAt 3 us e' ∧ e'.bare = e ∧ e'.span.hi ≤ limit
  | .true, hb => exists_literalAt (s := .keyword .TRUE) trivial rfl hb
  | .false, hb => exists_literalAt (s := .keyword .FALSE) trivial rfl hb
  | @Primary.integer digits, hb => exists_literalAt (s := .integer digits) trivial rfl hb
  | @Primary.decimal digits, hb => exists_literalAt (s := .decimal digits) trivial rfl hb
  | @Primary.string contents, hb => exists_literalAt (s := .string contents) trivial rfl hb
  | @Primary.var x hx, hb => by
    obtain ⟨span, us, rfl, hhi, hb⟩ := (Begins.cons_iff (s := .name x) hx).1 hb
    obtain rfl := Begins.nil_iff.1 hb
    exact ⟨[_], _, rfl, .var, rfl, hhi⟩
  | @Primary.call x _ _ hx hargs, hb => by
    obtain ⟨span, us, rfl, hhi, hb⟩ := (Begins.cons_iff (s := .name x) hx).1 hb
    obtain ⟨opening, us, rfl, -, hb⟩ := (Begins.cons_iff (s := .mark .opening) trivial).1 hb
    obtain ⟨mid, hb₁, hb⟩ := Begins.append_iff.1 hb
    obtain ⟨close, us', rfl, hhi', hb⟩ := (Begins.cons_iff (s := .mark .closing) trivial).1 hb
    obtain rfl := Begins.nil_iff.1 hb
    obtain ⟨vs, es, rfl, hes, rfl⟩ := exists_argumentsAt hlimit hargs hb₁
    obtain ⟨whole, hjoin, hwhole⟩ := Span.join?_of_hi_le hlimit hhi hhi'
    exact ⟨⟨.name x, span⟩ :: ⟨.mark .opening, opening⟩ :: (vs ++ [⟨.mark .closing, close⟩]),
      .call ⟨x, span⟩ es () whole (), by simp, .call hes hjoin, rfl, hwhole⟩
  | .group hl, hb => by
    obtain ⟨span, us, rfl, hhi, hb⟩ := (Begins.cons_iff (s := .mark .opening) trivial).1 hb
    obtain ⟨mid, hb₁, hb⟩ := Begins.append_iff.1 hb
    obtain ⟨close, us', rfl, hhi', hb⟩ := (Begins.cons_iff (s := .mark .closing) trivial).1 hb
    obtain rfl := Begins.nil_iff.1 hb
    obtain ⟨vs, e', rfl, he, rfl, -⟩ := exists_exprAt hlimit hl hb₁
    obtain ⟨whole, hjoin, hwhole⟩ := Span.join?_of_hi_le hlimit hhi hhi'
    exact ⟨⟨.mark .opening, span⟩ :: (vs ++ [⟨.mark .closing, close⟩]),
      .group e' whole (), by simp, .group he hjoin, rfl, hwhole⟩

theorem exists_argumentsAt (hlimit : limit ≤ Span.maxLength) {ts rest : List Lexeme}
    {ws : List Word} {es : List Bare.Expr} : Arguments ws es → Begins limit ts ws rest →
    ∃ us es', ts = us ++ rest ∧ ArgumentsAt us es' ∧ Expr.bareAll es' = es
  | .none, hb => by
    obtain rfl := Begins.nil_iff.1 hb
    exact ⟨[], [], rfl, .nil, rfl⟩
  | .some hlist, hb => by
    obtain ⟨us, e, es, rfl, hes, hbare⟩ := exists_argumentListAt hlimit hlist hb
    exact ⟨us, e :: es, rfl, hes, hbare⟩

theorem exists_argumentListAt (hlimit : limit ≤ Span.maxLength) {ts rest : List Lexeme}
    {ws : List Word} {es : List Bare.Expr} : ArgumentList ws es → Begins limit ts ws rest →
    ∃ us e' es', ts = us ++ rest ∧ ArgumentsAt us (e' :: es') ∧ Expr.bareAll (e' :: es') = es
  | .last hl, hb => by
    obtain ⟨us, e', rfl, he, rfl, -⟩ := exists_exprAt hlimit hl hb
    exact ⟨us, e', [], rfl, .last he, rfl⟩
  | .more hl hlist, hb => by
    obtain ⟨mid, hb₁, hb⟩ := Begins.append_iff.1 hb
    obtain ⟨comma, mid', rfl, -, hb₂⟩ := (Begins.cons_iff (s := .mark .comma) trivial).1 hb
    obtain ⟨us, e', rfl, he, rfl, -⟩ := exists_exprAt hlimit hl hb₁
    obtain ⟨vs, e'', es, rfl, hes, rfl⟩ := exists_argumentListAt hlimit hlist hb₂
    exact ⟨us ++ ⟨.mark .comma, comma⟩ :: vs, e', e'' :: es, by simp, .more he hes, rfl⟩

end

theorem exists_initialAt (hlimit : limit ≤ Span.maxLength) {ts rest : List Lexeme}
    {ws : List Word} {initial : Option Bare.Expr} (hi : Initializer ws initial)
    (hb : Begins limit ts ws rest) :
    ∃ us initial', ts = us ++ rest ∧ InitialAt us initial' ∧ initial'.map Expr.bare = initial := by
  cases hi with
  | none =>
    obtain rfl := Begins.nil_iff.1 hb
    exact ⟨[], none, rfl, .none, rfl⟩
  | some hl =>
    obtain ⟨assign, us, rfl, -, hb⟩ := (Begins.cons_iff (s := .mark .assign) trivial).1 hb
    obtain ⟨vs, e, rfl, he, rfl, -⟩ := exists_exprAt hlimit hl hb
    exact ⟨_ :: vs, some e, rfl, .some he, rfl⟩

mutual

theorem exists_stmtAt (hlimit : limit ≤ Span.maxLength) {ts rest : List Lexeme}
    {ws : List Word} {s : Bare.Stmt} : Statement ws s → Begins limit ts ws rest →
    ∃ us s', ts = us ++ rest ∧ StmtAt us s' ∧ s'.bare = s
  | .expr hl, hb => by
    obtain ⟨mid, hb₁, hb⟩ := Begins.append_iff.1 hb
    obtain ⟨stop, us, rfl, hhi, hb⟩ := (Begins.cons_iff (s := .mark .semicolon) trivial).1 hb
    obtain rfl := Begins.nil_iff.1 hb
    obtain ⟨vs, e, rfl, he, rfl, hhi'⟩ := exists_exprAt hlimit hl hb₁
    obtain ⟨whole, hjoin, -⟩ := Span.join?_of_hi_le hlimit hhi' hhi
    exact ⟨vs ++ [⟨.mark .semicolon, stop⟩], _, by simp, .expr he hjoin, rfl⟩
  | @Statement.declaration x ty _ _ hx hty hi, hb => by
    obtain ⟨start, us, rfl, hhi, hb⟩ := (Begins.cons_iff (s := .keyword .LET) trivial).1 hb
    obtain ⟨span, us, rfl, -, hb⟩ := (Begins.cons_iff (s := .name x) hx).1 hb
    obtain ⟨colon, us, rfl, -, hb⟩ := (Begins.cons_iff (s := .mark .colon) trivial).1 hb
    obtain ⟨span', us, rfl, -, hb⟩ := (Begins.cons_iff (s := .name ty) hty).1 hb
    obtain ⟨mid, hb₁, hb⟩ := Begins.append_iff.1 hb
    obtain ⟨stop, us', rfl, hhi', hb⟩ := (Begins.cons_iff (s := .mark .semicolon) trivial).1 hb
    obtain rfl := Begins.nil_iff.1 hb
    obtain ⟨vs, initial, rfl, hi', rfl⟩ := exists_initialAt hlimit hi hb₁
    obtain ⟨whole, hjoin, -⟩ := Span.join?_of_hi_le hlimit hhi hhi'
    exact ⟨⟨.keyword .LET, start⟩ :: ⟨.name x, span⟩ :: ⟨.mark .colon, colon⟩ ::
        ⟨.name ty, span'⟩ :: (vs ++ [⟨.mark .semicolon, stop⟩]),
      .declaration ⟨x, span⟩ ⟨ty, span'⟩ initial whole, by simp, .declaration hi' hjoin, rfl⟩
  | @Statement.assignment x _ _ hx hl, hb => by
    obtain ⟨span, us, rfl, hhi, hb⟩ := (Begins.cons_iff (s := .name x) hx).1 hb
    obtain ⟨assign, us, rfl, -, hb⟩ := (Begins.cons_iff (s := .mark .assign) trivial).1 hb
    obtain ⟨mid, hb₁, hb⟩ := Begins.append_iff.1 hb
    obtain ⟨stop, us', rfl, hhi', hb⟩ := (Begins.cons_iff (s := .mark .semicolon) trivial).1 hb
    obtain rfl := Begins.nil_iff.1 hb
    obtain ⟨vs, e, rfl, he, rfl, -⟩ := exists_exprAt hlimit hl hb₁
    obtain ⟨whole, hjoin, -⟩ := Span.join?_of_hi_le hlimit hhi hhi'
    exact ⟨⟨.name x, span⟩ :: ⟨.mark .assign, assign⟩ :: (vs ++ [⟨.mark .semicolon, stop⟩]),
      .assignment ⟨x, span⟩ e whole, by simp, .assignment he hjoin, rfl⟩
  | .branch hl hyes hno, hb => by
    obtain ⟨start, us, rfl, hhi, hb⟩ := (Begins.cons_iff (s := .keyword .IF) trivial).1 hb
    obtain ⟨mid, hb₁, hb⟩ := Begins.append_iff.1 hb
    obtain ⟨then', us', rfl, -, hb⟩ := (Begins.cons_iff (s := .keyword .THEN) trivial).1 hb
    obtain ⟨mid', hb₂, hb⟩ := Begins.append_iff.1 hb
    obtain ⟨mid'', hb₃, hb⟩ := Begins.append_iff.1 hb
    obtain ⟨stop, us'', rfl, hhi', hb⟩ := (Begins.cons_iff (s := .keyword .END) trivial).1 hb
    obtain rfl := Begins.nil_iff.1 hb
    obtain ⟨cs, c, rfl, hc, rfl, -⟩ := exists_exprAt hlimit hl hb₁
    obtain ⟨ys, yes, rfl, hyes', rfl⟩ := exists_blockAt hlimit hyes hb₂
    obtain ⟨ns, no, rfl, hno', rfl⟩ := exists_elseAt hlimit hno hb₃
    obtain ⟨whole, hjoin, -⟩ := Span.join?_of_hi_le hlimit hhi hhi'
    exact ⟨⟨.keyword .IF, start⟩ :: (cs ++ ⟨.keyword .THEN, then'⟩ ::
        (ys ++ (ns ++ [⟨.keyword .END, stop⟩]))), _, by simp, .branch hc hyes' hno' hjoin, rfl⟩
  | .loop hl hbody, hb => by
    obtain ⟨start, us, rfl, hhi, hb⟩ := (Begins.cons_iff (s := .keyword .WHILE) trivial).1 hb
    obtain ⟨mid, hb₁, hb⟩ := Begins.append_iff.1 hb
    obtain ⟨do', us', rfl, -, hb⟩ := (Begins.cons_iff (s := .keyword .DO) trivial).1 hb
    obtain ⟨mid', hb₂, hb⟩ := Begins.append_iff.1 hb
    obtain ⟨stop, us'', rfl, hhi', hb⟩ := (Begins.cons_iff (s := .keyword .END) trivial).1 hb
    obtain rfl := Begins.nil_iff.1 hb
    obtain ⟨cs, c, rfl, hc, rfl, -⟩ := exists_exprAt hlimit hl hb₁
    obtain ⟨bs, body, rfl, hbody', rfl⟩ := exists_blockAt hlimit hbody hb₂
    obtain ⟨whole, hjoin, -⟩ := Span.join?_of_hi_le hlimit hhi hhi'
    exact ⟨⟨.keyword .WHILE, start⟩ :: (cs ++ ⟨.keyword .DO, do'⟩ ::
        (bs ++ [⟨.keyword .END, stop⟩])), _, by simp, .loop hc hbody' hjoin, rfl⟩

theorem exists_elseAt (hlimit : limit ≤ Span.maxLength) {ts rest : List Lexeme}
    {ws : List Word} {ss : List Bare.Stmt} : Otherwise ws ss → Begins limit ts ws rest →
    ∃ us ss', ts = us ++ rest ∧ ElseAt us ss' ∧ Stmt.bareAll ss' = ss
  | .none, hb => by
    obtain rfl := Begins.nil_iff.1 hb
    exact ⟨[], [], rfl, .none, rfl⟩
  | .some hss, hb => by
    obtain ⟨start, us, rfl, -, hb⟩ := (Begins.cons_iff (s := .keyword .ELSE) trivial).1 hb
    obtain ⟨vs, ss', rfl, hss', rfl⟩ := exists_blockAt hlimit hss hb
    exact ⟨_ :: vs, ss', rfl, .some hss', rfl⟩

theorem exists_blockAt (hlimit : limit ≤ Span.maxLength) {ts rest : List Lexeme}
    {ws : List Word} {ss : List Bare.Stmt} : Statements ws ss → Begins limit ts ws rest →
    ∃ us ss', ts = us ++ rest ∧ BlockAt us ss' ∧ Stmt.bareAll ss' = ss
  | .nil, hb => by
    obtain rfl := Begins.nil_iff.1 hb
    exact ⟨[], [], rfl, .nil, rfl⟩
  | .cons hs hss, hb => by
    obtain ⟨mid, hb₁, hb₂⟩ := Begins.append_iff.1 hb
    obtain ⟨us, s, rfl, hs', rfl⟩ := exists_stmtAt hlimit hs hb₁
    obtain ⟨vs, ss', rfl, hss', rfl⟩ := exists_blockAt hlimit hss hb₂
    exact ⟨us ++ vs, s :: ss', by simp, .cons hs' hss', rfl⟩

end

end Placing

end LetLang
