import LetLang.Proofs.Tree.Nodes
import LetLang.Proofs.Tree.Parsing
import LetLang.Proofs.Tree.Sound

/-!
The layered parser: one function for each layer of operators, which reads an expression of the next
layer and then chains it, to the left, as long as an operator of its own layer comes next. The
parser has one loop for all layers instead. The two read the same from all lexemes, and fail alike.
-/

namespace LetLang

open Parser

namespace Layered

variable (finish : Span)

mutual

/-- An expression of layer `n`, where the operands are layer 3. -/
def layer (n : Nat) (ts : List Lexeme) : ParseResult (Expr .parsed) ts.length :=
  if n < 3 then do
    let ⟨lhs, rest, _⟩ ← layer (n + 1) ts
    let ⟨e, rest, _⟩ ← chain n lhs rest
    return ⟨e, rest, by omega⟩
  else operand ts
termination_by 6 * ts.length + (3 - n) + 1

/-- The operators of layer `n` after an expression of that layer. -/
def chain (n : Nat) (lhs : Expr .parsed) (ts : List Lexeme) :
    ParseResult (Expr .parsed) (ts.length + 1) :=
  match ts with
  | [] => .ok ⟨lhs, [], Nat.lt_succ_self _⟩
  | t :: rest =>
    match operator? t.spelling with
    | none => .ok ⟨lhs, t :: rest, Nat.lt_succ_self _⟩
    | some op =>
      if op.layer = n then do
        let ⟨rhs, rest, _⟩ ← layer (n + 1) rest
        let span ← joined lhs.span rhs.span
        let ⟨e, rest, _⟩ ← chain n (.binary op lhs rhs span ()) rest
        return ⟨e, rest, by rw [List.length_cons]; omega⟩
      else .ok ⟨lhs, t :: rest, Nat.lt_succ_self _⟩
termination_by 6 * ts.length

/-- A literal, a variable, a call or a group. -/
def operand (ts : List Lexeme) : ParseResult (Expr .parsed) ts.length :=
  match ts with
  | [] => failNext finish [] .tokenInExpr
  | t :: rest =>
    match t.spelling with
    | .keyword .TRUE => .ok ⟨.literal (.bool true) t.span (), rest, Nat.lt_succ_self _⟩
    | .keyword .FALSE => .ok ⟨.literal (.bool false) t.span (), rest, Nat.lt_succ_self _⟩
    | .keyword k => failAt t.span (.keywordInExpr k)
    | .name text =>
      let name : Ident := ⟨text, t.span⟩
      match take? (.mark .opening) rest with
      | none => .ok ⟨.var name t.span (), rest, Nat.lt_succ_self _⟩
      | some ⟨_, rest, _⟩ => do
        let ⟨(args, close), rest, _⟩ ← arguments rest
        let span ← joined t.span close
        return ⟨.call name args () span (), rest, by rw [List.length_cons]; omega⟩
    | .integer digits => .ok ⟨.literal (.integer digits) t.span (), rest, Nat.lt_succ_self _⟩
    | .decimal digits => .ok ⟨.literal (.decimal digits) t.span (), rest, Nat.lt_succ_self _⟩
    | .string contents => .ok ⟨.literal (.string contents) t.span (), rest, Nat.lt_succ_self _⟩
    | .mark .opening => do
      let ⟨inner, rest, _⟩ ← layer 0 rest
      let ⟨close, rest, _⟩ ← groupEnd finish rest
      let span ← joined t.span close
      return ⟨.group inner span (), rest, by rw [List.length_cons]; omega⟩
    | .mark m => failAt t.span (.tokenInExpr (.mark m))
    | .unreadable _ => .error .abort
termination_by 6 * ts.length

/-- What stands between the parentheses of a call, and the span of the closing one. -/
def arguments (ts : List Lexeme) : ParseResult (List (Expr .parsed) × Span) ts.length :=
  match take? (.mark .closing) ts with
  | some ⟨close, rest, h⟩ => .ok ⟨([], close), rest, h⟩
  | none => argumentsFrom ts
termination_by 6 * ts.length + 6

/-- At least one argument. -/
def argumentsFrom (ts : List Lexeme) : ParseResult (List (Expr .parsed) × Span) ts.length := do
  let ⟨arg, rest, _⟩ ← layer 0 ts
  let ⟨close?, rest, _⟩ ← argumentEnd finish rest
  match close? with
  | some close => return ⟨([arg], close), rest, by omega⟩
  | none =>
    let ⟨(args, close), rest, _⟩ ← argumentsFrom rest
    return ⟨(arg :: args, close), rest, by omega⟩
termination_by 6 * ts.length + 5

end

end Layered

namespace Parser

variable {α β ε : Type} {finish : Span} {m n : Nat}

/-- What a reader gives and where it stops, or how it fails. -/
def unbounded (r : ParseResult α n) : Result (Located ParseError) (α × List Lexeme) :=
  r.map fun p => (p.value, p.rest)

theorem unbounded_injective {r r' : ParseResult α n} (h : unbounded r = unbounded r') : r = r' := by
  match r, r', h with
  | .error f, .error f', h =>
    cases h
    rfl
  | .ok ⟨a, ts, _⟩, .ok ⟨b, us, _⟩, h =>
    cases h
    rfl

theorem unbounded_bind {r : ParseResult α m} {f : Parsed α m → ParseResult β n}
    {g : α → List Lexeme → Result (Located ParseError) (β × List Lexeme)}
    (h : ∀ a mid hm, unbounded (f ⟨a, mid, hm⟩) = g a mid) :
    unbounded (r >>= f) = unbounded r >>= fun x => g x.1 x.2 := by
  cases r with
  | error f => rfl
  | ok p => exact h p.value p.rest p.shorter

theorem unbounded_relaxed {r : ParseResult α m} {hn : ∀ p : Parsed α m, p.rest.length < n} :
    unbounded (r >>= fun p => (.ok ⟨p.value, p.rest, hn p⟩ : ParseResult α n)) = unbounded r := by
  cases r <;> rfl

theorem Reads.unbounded_eq {r : ParseResult α n} {a : α} {rest : List Lexeme} (h : Reads r a rest) :
    unbounded r = .ok (a, rest) := by
  obtain ⟨_, rfl⟩ := h
  rfl

theorem reads_of_unbounded_eq {r : ParseResult α n} {x : α × List Lexeme}
    (h : unbounded r = .ok x) : Reads r x.1 x.2 := by
  cases r with
  | error f => cases h
  | ok p =>
    cases h
    exact ⟨p.shorter, rfl⟩

theorem bind_congr_of_ok {r : Result ε α} {f g : α → Result ε β} (h : ∀ a, r = .ok a → f a = g a) :
    r >>= f = r >>= g := by
  cases r with
  | error e => rfl
  | ok a => exact h a rfl

theorem unbounded_expr {power : Nat} {ts : List Lexeme} :
    unbounded (expr finish power ts) =
      unbounded (operand finish ts) >>= fun x => unbounded (operators finish power x.1 x.2) := by
  rw [expr]
  exact unbounded_bind (g := fun lhs mid => unbounded (operators finish power lhs mid))
    fun lhs mid _ => unbounded_relaxed

/-- Joining spans reads nothing. -/
theorem unbounded_joined {s s' : Span} {f : Span → ParseResult α m} :
    unbounded (joined s s' >>= f) = joined s s' >>= fun span => unbounded (f span) := by
  unfold joined
  cases s.join? s' <;> rfl

theorem operators_go {power : Nat} {lhs : Expr .parsed} {t : Lexeme} {ts : List Lexeme}
    {op : Operator} (hop : operator? t.spelling = some op) (hp : power ≤ op.leftPower) :
    unbounded (operators finish power lhs (t :: ts)) =
      unbounded (expr finish op.rightPower ts) >>= fun x => joined lhs.span x.1.span >>= fun span =>
        unbounded (operators finish power (.binary op lhs x.1 span ()) x.2) := by
  rw [operators]
  simp only [hop]
  rw [if_neg (Nat.not_lt.2 hp)]
  refine unbounded_bind (g := fun rhs mid => joined lhs.span rhs.span >>= fun span =>
    unbounded (operators finish power (.binary op lhs rhs span ()) mid)) fun rhs mid _ => ?_
  rw [unbounded_joined]
  exact bind_congr_of_ok fun span _ => unbounded_relaxed

/-- The loop can be left at a higher power and taken up again at a lower one. -/
theorem operators_resume {p q : Nat} (hpq : p ≤ q) (lhs : Expr .parsed) (ts : List Lexeme) :
    unbounded (operators finish p lhs ts) =
      unbounded (operators finish q lhs ts) >>= fun x =>
        unbounded (operators finish p x.1 x.2) := by
  by_cases hstop : Stops q ts
  · rw [(reads_operators_stop hstop).unbounded_eq]
    rfl
  · obtain ⟨t, after, op, hcons, hop, hq⟩ := not_stops_iff.1 hstop
    have hlt : after.length < ts.length := by simp [hcons]
    -- An operator that is held at `q` is held at `p`: both go on behind the same right operand.
    rw [hcons, operators_go hop (Nat.le_trans hpq hq), operators_go hop hq, bind_assoc]
    refine bind_congr_of_ok fun x hx => ?_
    have hlt' := (reads_of_unbounded_eq hx).shorter
    rw [bind_assoc]
    refine bind_congr_of_ok fun span _ => ?_
    exact operators_resume hpq _ x.2
termination_by ts.length

/-- An expression that is held less tightly starts with one that is held more tightly. -/
theorem expr_resume {p q : Nat} (hpq : p ≤ q) (ts : List Lexeme) :
    unbounded (expr finish p ts) =
      unbounded (expr finish q ts) >>= fun x => unbounded (operators finish p x.1 x.2) := by
  rw [unbounded_expr, unbounded_expr, bind_assoc]
  exact bind_congr_of_ok fun x _ => operators_resume hpq x.1 x.2

/-- No operator holds its operands as tightly as the last layer. -/
theorem stops_operands (ts : List Lexeme) : Stops (2 * 3) ts := by
  intro t rest op _ _
  have := op.layer_le
  rw [op.leftPower_eq]
  omega

end Parser

namespace Layered

variable {finish : Span}

theorem chain_stop {n : Nat} {lhs : Expr .parsed} {ts : List Lexeme}
    (h : ∀ t rest op, ts = t :: rest → operator? t.spelling = some op → op.layer ≠ n) :
    unbounded (chain finish n lhs ts) = .ok (lhs, ts) := by
  rw [chain.eq_def]
  split
  · rfl
  · next t rest =>
    split
    · rfl
    · next op hop =>
      rw [if_neg (h t rest op rfl hop)]
      rfl

theorem chain_go {lhs : Expr .parsed} {t : Lexeme} {ts : List Lexeme} {op : Operator}
    (hop : operator? t.spelling = some op) :
    unbounded (chain finish op.layer lhs (t :: ts)) =
      unbounded (layer finish (op.layer + 1) ts) >>= fun x =>
        joined lhs.span x.1.span >>= fun span =>
          unbounded (chain finish op.layer (.binary op lhs x.1 span ()) x.2) := by
  rw [chain]
  simp only [hop, if_true]
  refine unbounded_bind (g := fun rhs mid => joined lhs.span rhs.span >>= fun span =>
    unbounded (chain finish op.layer (.binary op lhs rhs span ()) mid)) fun rhs mid _ => ?_
  rw [unbounded_joined]
  exact bind_congr_of_ok fun span _ => unbounded_relaxed

theorem unbounded_layer {n : Nat} {ts : List Lexeme} (hn : n < 3) :
    unbounded (layer finish n ts) =
      unbounded (layer finish (n + 1) ts) >>= fun x => unbounded (chain finish n x.1 x.2) := by
  rw [layer, if_pos hn]
  exact unbounded_bind (g := fun lhs mid => unbounded (chain finish n lhs mid))
    fun lhs mid _ => unbounded_relaxed

mutual

/-- The power of a layer reads that layer. -/
theorem expr_eq_layer {n : Nat} (hn : n ≤ 3) (ts : List Lexeme) :
    Parser.expr finish (2 * n) ts = layer finish n ts := by
  apply unbounded_injective
  by_cases hlast : n = 3
  · subst hlast
    rw [unbounded_expr, layer, if_neg (Nat.lt_irrefl 3), ← operand_eq ts]
    conv => rhs; rw [← bind_pure (unbounded _)]
    exact bind_congr_of_ok fun x _ => (reads_operators_stop (stops_operands x.2)).unbounded_eq
  · have hlt : n < 3 := Nat.lt_of_le_of_ne hn hlast
    rw [expr_resume (q := 2 * (n + 1)) (by omega), unbounded_layer hlt, ← expr_eq_layer hlt ts]
    refine bind_congr_of_ok fun x hx => ?_
    -- What the next layer has read is shorter, and no operator of a tighter layer comes after it.
    have hx := reads_of_unbounded_eq hx
    have hshort := hx.shorter
    obtain ⟨-, -, -, hstop⟩ := exprAt_of_reads hx hlt
    exact operators_eq_chain hlt x.1 x.2 hstop
termination_by 6 * ts.length + (3 - n) + 1

/-- After an expression of the next layer, only operators of this layer can be held. -/
theorem operators_eq_chain {n : Nat} (hn : n < 3) (lhs : Expr .parsed) (ts : List Lexeme)
    (hstop : Stops (2 * (n + 1)) ts) :
    unbounded (Parser.operators finish (2 * n) lhs ts) = unbounded (chain finish n lhs ts) := by
  by_cases hs : Stops (2 * n) ts
  · rw [(reads_operators_stop hs).unbounded_eq, chain_stop]
    intro t rest op hts hop hlayer
    have := hs t rest op hts hop
    rw [op.leftPower_eq] at this
    omega
  · obtain ⟨t, after, op, rfl, hop, hp⟩ := not_stops_iff.1 hs
    have hlt := hstop t after op rfl hop
    rw [operators_go hop hp]
    -- It is held at this layer and not at the next one.
    rw [op.leftPower_eq] at hp hlt
    obtain rfl : op.layer = n := by omega
    rw [chain_go hop, op.rightPower_eq, expr_eq_layer hn after]
    refine bind_congr_of_ok fun x hx => ?_
    rw [← expr_eq_layer hn after] at hx
    have hx := reads_of_unbounded_eq hx
    have hshort := hx.shorter
    obtain ⟨-, -, -, hstop'⟩ := exprAt_of_reads hx hn
    exact bind_congr_of_ok fun span _ => operators_eq_chain hn _ x.2 hstop'
termination_by 6 * ts.length

theorem operand_eq (ts : List Lexeme) : Parser.operand finish ts = operand finish ts := by
  rw [Parser.operand.eq_def, operand.eq_def]
  cases ts with
  | nil => rfl
  | cons t rest =>
    obtain ⟨spelling, span⟩ := t
    cases spelling with
    | keyword k => cases k <;> rfl
    | name text =>
      dsimp only
      cases take? (.mark .opening) rest with
      | none => rfl
      | some p =>
        obtain ⟨opening, after, hlt⟩ := p
        dsimp only
        rw [arguments_eq after]
    | mark m =>
      cases m with
      | opening =>
        dsimp only
        rw [← expr_eq_layer (Nat.zero_le 3) rest]
      | _ => rfl
    | _ => rfl
termination_by 6 * ts.length

theorem arguments_eq (ts : List Lexeme) : Parser.arguments finish ts = arguments finish ts := by
  rw [Parser.arguments, arguments]
  cases take? (.mark .closing) ts with
  | some p => rfl
  | none => exact argumentsFrom_eq ts
termination_by 6 * ts.length + 6

theorem argumentsFrom_eq (ts : List Lexeme) :
    Parser.argumentsFrom finish ts = argumentsFrom finish ts := by
  rw [Parser.argumentsFrom, argumentsFrom, ← expr_eq_layer (Nat.zero_le 3) ts]
  refine bind_congr_of_ok fun p _ => ?_
  have hp := p.shorter
  refine bind_congr_of_ok fun q _ => ?_
  obtain ⟨close?, after, hq⟩ := q
  cases close? with
  | some close => rfl
  | none =>
    dsimp only
    rw [argumentsFrom_eq after]
termination_by 6 * ts.length + 5

end

end Layered

/-! The layers of a tree. -/

/-- Of the layers that a bare operator belongs to, its own is the tightest. -/
theorem ExprAt.layer_of_binary {n : Nat} {us : List Lexeme} {e : Expr .parsed} :
    ExprAt n us e → ∀ op l r span, e = .binary op l r span () →
      n ≤ op.layer ∧ (∃ ls, ExprAt op.layer ls l) ∧ ∃ rs, ExprAt (op.layer + 1) rs r
  | .chain hop hl hr _, op, l, r, span, he => by
    cases he
    subst hop
    exact ⟨Nat.le_refl _, ⟨_, hl⟩, _, hr⟩
  | .tighter h, op, l, r, span, he => by
    obtain ⟨hle, hparts⟩ := h.layer_of_binary op l r span he
    exact ⟨Nat.le_of_succ_le hle, hparts⟩
  | .literal _, _, _, _, _, he | .var, _, _, _, _, he | .call _ _, _, _, _, _, he
  | .group _ _, _, _, _, _, he => by cases he

/-- From all lexemes, the loop over binding powers reads what the layered parser reads, with the
same spans, and stops where it stops; where one fails, so does the other, with the same error. So
in every tree that is parsed, what stands bare on the right of an operator is of a tighter layer,
and what stands bare on its left is not of a looser one. -/
theorem expr_eq_layered :
    (∀ finish ts, Parser.expr finish 0 ts = Layered.layer finish 0 ts) ∧
    ∀ source tokens program, parse source tokens = .ok program →
      ∀ op l r span, Node.Within (program.map .stmt) (.expr (.binary op l r span ())) →
        (∀ op' l' r' span', r = .binary op' l' r' span' () → op.layer < op'.layer) ∧
        ∀ op' l' r' span', l = .binary op' l' r' span' () → op.layer ≤ op'.layer := by
  refine ⟨fun finish ts => Layered.expr_eq_layer (Nat.zero_le 3) ts, ?_⟩
  intro source tokens program hparse op l r span hwithin
  obtain ⟨us, -, hblock⟩ := blockAt_of_reads (parse_eq_ok_iff.1 hparse).2
  obtain ⟨before, mid, after, -, hat, -⟩ := hblock.exists_at hwithin
  obtain ⟨-, ⟨ls, hl⟩, rs, hr⟩ := ExprAt.layer_of_binary hat op l r span rfl
  constructor
  · intro op' l' r' span' he
    exact (hr.layer_of_binary op' l' r' span' he).1
  · intro op' l' r' span' he
    exact (hl.layer_of_binary op' l' r' span' he).1

theorem layers_of_product_in_difference :
    ∃ program l r span, parse "a-b*2;" (Lexer.lex "a-b*2;").tokens = .ok program ∧
      Node.Within (program.map .stmt) (.expr (.binary .sub l r span ())) ∧
      (∀ op' l' r' span', r = .binary op' l' r' span' () → Operator.sub.layer < op'.layer) ∧
      ∀ op' l' r' span', l = .binary op' l' r' span' () → Operator.sub.layer ≤ op'.layer := by
  let product : Expr .parsed := .binary .mul (.var ⟨"b", ⟨2, 1⟩⟩ ⟨2, 1⟩ ())
    (.literal (.integer "2") ⟨4, 1⟩ ()) ⟨2, 3⟩ ()
  let difference : Expr .parsed := .binary .sub (.var ⟨"a", ⟨0, 1⟩⟩ ⟨0, 1⟩ ()) product ⟨0, 5⟩ ()
  have hparse : parse "a-b*2;" (Lexer.lex "a-b*2;").tokens = .ok [.expr difference ⟨0, 6⟩] := by
    with_unfolding_all rfl
  have hwithin : Node.Within [.stmt (.expr difference ⟨0, 6⟩)] (.expr difference) :=
    .part (.root (List.mem_singleton.2 rfl)) (List.mem_singleton.2 rfl)
  have hlayers := expr_eq_layered.2 _ _ _ hparse _ _ _ _ hwithin
  exact ⟨_, _, _, _, hparse, hwithin, hlayers⟩

end LetLang
