import LetLang.Proofs.Tree.Cursor.Follows

/-!
How far a walk gets and what it costs. A walk is given some steps to take, and each token that it
leaves behind pays for seven more; so as long as a loop leaves a token behind in each turn, it never
runs out of steps.
-/

namespace LetLang.Tape

variable (tape : Tape) {α β : Type}

/-- From a cursor to another one, not back and not behind the first `eof`, at the cost of some steps
and of seven for each token in between. -/
structure Costs (credit : Nat) (c c' : Cursor) : Prop where
  holds : tape.Holds c'
  place : c.place ≤ c'.place
  steps : c'.steps + 7 * c.place ≤ c.steps + credit + 7 * c'.place

/-- From a place on, a walk ends at the cost of its credit. If it gives a value, it has come as far as
the goal, and some of the credit is left. -/
def Proceeds (i credit : Nat) (w : Walk α) (goal left : Nat) : Prop :=
  ∀ c, tape.Holds c → c.place = i → ∃ r c', w.run.run c = some (r, c') ∧ tape.Costs credit c c' ∧
    ∀ a, r = .ok a → goal ≤ c'.place ∧
      c'.steps + left + 7 * c.place ≤ c.steps + credit + 7 * c'.place

variable {tape} {i credit goal left : Nat}

theorem lt_of_keyword {k : Keyword} (hi : i ≤ tape.length)
    (h : ((tape.tokenAt i).keyword? tape.source : Result (Located ParseError) _) = .ok (some k)) :
    i < tape.length := by
  rcases Token.keyword?_cases tape.source (tape.tokenAt i) with
    ⟨h', -⟩ | ⟨_, -, hs⟩ | ⟨h', -, -⟩
  · cases h.symm.trans h'
  · exact lt_of_identifier hi (Token.kind_of_spelling hs)
  · cases h.symm.trans h'

namespace Proceeds

theorem pure {a : α} (hgoal : goal ≤ i) (hleft : left ≤ credit) :
    tape.Proceeds i credit (pure a) goal left := by
  rintro c hc rfl
  refine ⟨.ok a, c, rfl, ⟨hc, Nat.le_refl _, by omega⟩, fun _ _ => ⟨hgoal, by omega⟩⟩

theorem error {f : Failure (Located ParseError)} :
    tape.Proceeds i credit (give (.error f) : Walk α) goal left := by
  rintro c hc rfl
  refine ⟨.error f, c, rfl, ⟨hc, Nat.le_refl _, by omega⟩, ?_⟩
  rintro _ ⟨⟩

/-- What is done next starts with the credit that is left, and with what was held back. -/
theorem bind {w : Walk α} {f : α → Walk β} {back p q m : Nat} (hw : tape.Proceeds i p w m q)
    (hf : ∀ a j, i ≤ j → m ≤ j → j ≤ tape.length → tape.Proceeds j (back + q) (f a) goal left) :
    tape.Proceeds i (back + p) (w >>= f) goal left := by
  rintro c hc hi
  obtain ⟨r, c', hrun, hcosts, hok⟩ := hw c hc hi
  obtain ⟨hc', hle, hsteps⟩ := hcosts
  rw [Walk.run_bind, hrun]
  cases r with
  | error e =>
    refine ⟨.error e, c', rfl, ⟨hc', hle, by omega⟩, ?_⟩
    rintro _ ⟨⟩
  | ok a =>
    obtain ⟨hm, hq⟩ := hok a rfl
    obtain ⟨r, c'', hrun', ⟨hc'', hle', hsteps'⟩, hok'⟩ :=
      hf a c'.place (hi ▸ hle) hm hc'.place c' hc' rfl
    refine ⟨r, c'', hrun', ⟨hc'', Nat.le_trans hle hle', by omega⟩, fun b hb => ?_⟩
    obtain ⟨hgoal, hleft⟩ := hok' b hb
    exact ⟨hgoal, by omega⟩

theorem last {w : Walk α} {back p q m : Nat} (h : tape.Proceeds i p w m q) (hgoal : goal ≤ m)
    (hleft : left ≤ back + q) : tape.Proceeds i (back + p) w goal left := by
  rw [← bind_pure w]
  exact h.bind fun a j _ hm _ => pure (Nat.le_trans hgoal hm) hleft

/-- The place that a walk starts at may be taken to be in range. -/
theorem of_le {w : Walk α} (h : i ≤ tape.length → tape.Proceeds i credit w goal left) :
    tape.Proceeds i credit w goal left := by
  rintro c hc rfl
  exact h hc.place c hc rfl

theorem give {x : Result (Located ParseError) α} {f : α → Walk β}
    (h : ∀ a, x = .ok a → tape.Proceeds i credit (f a) goal left) :
    tape.Proceeds i credit (Tape.give x >>= f) goal left := by
  cases x with
  | error e => exact error
  | ok a => exact h a rfl

/-- A step that leaves the place as it is takes one of the credit. -/
theorem step {w w' : Walk α} (g : Cursor → Cursor)
    (hg : ∀ c, tape.Holds c → c.place = i →
      w.run.run c = w'.run.run (g c) ∧ tape.Holds (g c) ∧ (g c).place = c.place ∧
        (g c).steps = c.steps + 1)
    (h : tape.Proceeds i credit w' goal left) : tape.Proceeds i (credit + 1) w goal left := by
  rintro c hc rfl
  obtain ⟨hrun, hholds, hplace, hsteps⟩ := hg c hc rfl
  obtain ⟨r, c', hrun', ⟨hc', hle, hcost⟩, hok⟩ := h (g c) hholds hplace
  rw [hplace, hsteps] at hcost hok
  rw [hplace] at hle
  refine ⟨r, c', hrun.trans hrun', ⟨hc', hle, by omega⟩, fun a ha => ?_⟩
  obtain ⟨hgoal, hleft⟩ := hok a ha
  exact ⟨hgoal, by omega⟩

theorem tick {f : Unit → Walk β} (h : tape.Proceeds i credit (f ()) goal left) :
    tape.Proceeds i (credit + 1) (tick >>= f) goal left := by
  refine h.step (fun c => { c with steps := c.steps + 1 }) fun c hc _ => ?_
  exact ⟨rfl, ⟨hc.place, hc.furthest⟩, rfl, rfl⟩

variable {f : Token → Walk β}

theorem look {ahead : Nat} (hi : i + ahead ≤ tape.length)
    (h : tape.Proceeds i credit (f (tape.tokenAt (i + ahead))) goal left) :
    tape.Proceeds i (credit + 1) (tape.peek ahead >>= f) goal left := by
  refine h.step (fun c => { c with
    furthest := max c.furthest (c.place + ahead), steps := c.steps + 1 }) ?_
  rintro c hc rfl
  exact ⟨rfl, ⟨hc.place, Nat.max_le.2 ⟨hc.furthest, hi⟩⟩, rfl, rfl⟩

theorem peek (h : tape.Proceeds i credit (f (tape.tokenAt i)) goal left) :
    tape.Proceeds i (credit + 1) (tape.peek 0 >>= f) goal left :=
  of_le fun hi => look hi h

/-- A token that is left behind pays for seven steps. -/
theorem advance (hi : i < tape.length)
    (h : tape.Proceeds (i + 1) (credit + 7) (f (tape.tokenAt i)) goal left) :
    tape.Proceeds i (credit + 1) (tape.advance >>= f) goal left := by
  rw [Tape.advance, bind_assoc]
  refine peek ?_
  rw [isEof_tokenAt hi]
  rintro c hc rfl
  obtain ⟨r, c', hrun, ⟨hc', hle, hcost⟩, hok⟩ :=
    h { c with place := c.place + 1 } ⟨hi, hc.furthest⟩ rfl
  dsimp only at hle hcost hok
  refine ⟨r, c', hrun, ⟨hc', Nat.le_of_succ_le hle, by omega⟩, fun a ha => ?_⟩
  obtain ⟨hgoal, hleft⟩ := hok a ha
  exact ⟨hgoal, by omega⟩

/-- At the end, the cursor stays. -/
theorem advance_end (hi : i = tape.length)
    (h : tape.Proceeds i credit (f (tape.tokenAt i)) goal left) :
    tape.Proceeds i (credit + 1) (tape.advance >>= f) goal left := by
  subst hi
  rw [Tape.advance, bind_assoc]
  refine peek ?_
  rw [isEof_tokenAt_length]
  exact h

theorem isNext {kind : TokenKind} {g : Bool → Walk β}
    (h : tape.Proceeds i credit (g ((tape.tokenAt i).kind = kind)) goal left) :
    tape.Proceeds i (credit + 1) (tape.isNext kind >>= g) goal left := by
  rw [Tape.isNext, bind_assoc]
  exact peek h

theorem take {m : Mark} {g : Bool → Walk β}
    (hyes : i < tape.length → tape.Proceeds (i + 1) (credit + 7) (g true) goal left)
    (hno : tape.Proceeds i (credit + 1) (g false) goal left) :
    tape.Proceeds i (credit + 2) (tape.take (.mark m) >>= g) goal left := by
  refine of_le fun hi => ?_
  rw [Tape.take, bind_assoc]
  refine isNext ?_
  by_cases hk : (tape.tokenAt i).kind = .mark m
  · obtain ⟨hlt, -⟩ := take?_mark hi hk
    rw [decide_eq_true hk, if_pos rfl, bind_assoc]
    exact advance hlt (hyes hlt)
  · rw [decide_eq_false hk]
    exact hno

theorem consume {kind : TokenKind} (hkind : kind ≠ .eof)
    (h : ∀ t, i < tape.length → tape.Proceeds (i + 1) (credit + 7) (f t) goal left) :
    tape.Proceeds i (credit + 2) (tape.consume kind >>= f) goal left := by
  refine of_le fun hi => ?_
  rw [Tape.consume, bind_assoc]
  refine peek ?_
  by_cases hk : (tape.tokenAt i).kind = kind
  · have hlt : i < tape.length := lt_length hi (hk ▸ hkind)
    rw [if_pos hk, bind_assoc]
    exact advance hlt (h _ hlt)
  · rw [if_neg hk]
    exact error

theorem takeKeyword {k : Keyword} {g : Bool → Walk β}
    (hyes : i < tape.length → tape.Proceeds (i + 1) (credit + 7) (g true) goal left)
    (hno : tape.Proceeds i (credit + 1) (g false) goal left) :
    tape.Proceeds i (credit + 2) (tape.takeKeyword k >>= g) goal left := by
  refine of_le fun hi => ?_
  rw [Tape.takeKeyword, bind_assoc]
  refine peek ?_
  rw [bind_assoc]
  refine give fun k? hread => ?_
  by_cases hk : k? = some k
  · have hlt : i < tape.length := lt_of_keyword hi (hk ▸ hread)
    rw [if_pos hk, bind_assoc]
    exact advance hlt (hyes hlt)
  · rw [if_neg hk]
    exact hno

theorem consumeKeyword {k : Keyword}
    (h : ∀ t, i < tape.length → tape.Proceeds (i + 1) (credit + 7) (f t) goal left) :
    tape.Proceeds i (credit + 2) (tape.consumeKeyword k >>= f) goal left := by
  refine of_le fun hi => ?_
  rw [Tape.consumeKeyword, bind_assoc]
  refine peek ?_
  rw [bind_assoc]
  refine give fun k? hread => ?_
  by_cases hk : k? = some k
  · have hlt : i < tape.length := lt_of_keyword hi (hk ▸ hread)
    rw [if_pos hk, bind_assoc]
    exact advance hlt (h _ hlt)
  · rw [if_neg hk]
    exact error

theorem ident : tape.Proceeds i 2 tape.ident (i + 1) 7 := by
  refine consume (by simp) fun t _ => ?_
  refine give fun k? _ => ?_
  cases k? with
  | some k => exact error
  | none => exact give fun name _ => pure (Nat.le_refl _) (Nat.le_refl _)

end Proceeds

end LetLang.Tape
