import LetLang.Proofs.Tree.Goals
import LetLang.Proofs.Tree.Sound

/-!
What a reader can do. It reads something, or it fails at the first lexeme that it cannot use, and
the lexemes before that one can be completed; it never ends in any other way. In both cases it does
what the work on its goals does.
-/

namespace LetLang.Parser

open Grammar

/-- Where an error about the next lexeme is put. -/
def place (finish : Span) : List Lexeme → Span
  | [] => finish
  | t :: _ => t.span

/-- The words that complete what was begun: a name for an expression, and what closes the rest. -/
def fillers : List Word :=
  [.name "x", .mark .closing, .mark .semicolon, .mark .colon, .keyword .THEN, .keyword .DO,
    .keyword .END]

/-- With a few fillers put after them, these lexemes say what is wanted. -/
def Opens (room : Nat) (Wanted : List Word → Prop) (used : List Lexeme) : Prop :=
  ∃ more, (∀ w ∈ more, w ∈ fillers) ∧ more.length ≤ used.length + room ∧
    Wanted (wordsOf used ++ more)

/-- A reader does with these lexemes what work on the goals does. Where it fails, what it has used
up is such that something may follow. -/
inductive Outcome {α : Type} {n : Nat} (finish : Span) (ts : List Lexeme) (goals : List Goal)
    (Open : List Lexeme → Prop) (r : ParseResult α n) : Prop
  | reads {a : α} {rest : List Lexeme} :
      Reads r a rest → (∀ gs, Runs (goals ++ gs) ts gs rest) → Outcome finish ts goals Open r
  | fails {used rest : List Lexeme} {e : ParseError} :
      ts = used ++ rest → r = failAt (place finish rest) e → Open used →
      (∀ gs, ∃ gs', Runs (goals ++ gs) ts gs' rest ∧ Stuck gs' rest e) →
      Outcome finish ts goals Open r

theorem failNext_eq {α : Type} {finish : Span} {ts : List Lexeme} {e : TokenKind → ParseError} :
    (failNext finish ts e : Result (Located ParseError) α) =
      failAt (place finish ts) (e (Goal.kindOf (look ts))) := by
  cases ts <;> rfl

namespace Outcome

variable {α β : Type} {m n : Nat} {finish : Span} {ts : List Lexeme} {goals : List Goal}
  {Open Open' : List Lexeme → Prop}

theorem done {a : α} {h : ts.length < n} :
    Outcome finish ts [] Open (.ok ⟨a, ts, h⟩ : ParseResult α n) :=
  .reads (reads_ok.2 ⟨rfl, rfl⟩) fun _ => .refl

/-- A failure at the next lexeme. -/
theorem fail {g : Goal} {r : ParseResult α n} {e : ParseError} (hopen : Open [])
    (hr : r = failAt (place finish ts) e) (hm : g.move (look ts) (look ts.tail) = .fail e) :
    Outcome finish ts [g] Open r :=
  .fails (List.nil_append ts).symm hr hopen fun gs => ⟨g :: gs, .refl, g, gs, rfl, hm⟩

theorem mono {r : ParseResult α n} (h : Outcome finish ts goals Open r)
    (hopen : ∀ used, Open used → Open' used) : Outcome finish ts goals Open' r := by
  cases h with
  | reads h hruns => exact .reads h hruns
  | fails hts hr ho hruns => exact .fails hts hr (hopen _ ho) hruns

/-- The goals of a reader that gives way to others. -/
theorem replace {g : Goal} {r : ParseResult α n}
    (hm : g.move (look ts) (look ts.tail) = .replace goals) (h : Outcome finish ts goals Open r) :
    Outcome finish ts [g] Open r := by
  cases h with
  | reads h hruns => exact .reads h fun gs => .replace hm (hruns gs)
  | fails hts hr ho hruns =>
    refine .fails hts hr ho fun gs => ?_
    obtain ⟨gs', hrun, hstuck⟩ := hruns gs
    exact ⟨gs', .replace hm hrun, hstuck⟩

/-- A lexeme is used up first, and what is left of its goal stands before the other goals. -/
theorem taken {g : Goal} {hs : List Goal} {t : Lexeme} {r : ParseResult α n}
    (hm : g.move (some t.spelling) (look ts) = .take hs)
    (h : Outcome finish ts (hs ++ goals) (fun used => Open (t :: used)) r) :
    Outcome finish (t :: ts) (g :: goals) Open r := by
  cases h with
  | reads h hruns =>
    refine .reads h fun gs => ?_
    have hrun := hruns gs
    rw [List.append_assoc] at hrun
    exact .take hm hrun
  | fails hts hr ho hruns =>
    refine .fails (by rw [hts, List.cons_append]) hr ho fun gs => ?_
    obtain ⟨gs', hrun, hstuck⟩ := hruns gs
    rw [List.append_assoc] at hrun
    exact ⟨gs', .take hm hrun, hstuck⟩

theorem take {g : Goal} {t : Lexeme} {r : ParseResult α n}
    (hm : g.move (some t.spelling) (look ts) = .take goals)
    (h : Outcome finish ts goals (fun used => Open (t :: used)) r) :
    Outcome finish (t :: ts) [g] Open r :=
  taken hm (by rwa [List.append_nil])

/-- A mark that is known to come next. -/
theorem pass {k : Mark} {span : Span} {r : ParseResult α n}
    (h : Outcome finish ts goals (fun used => Open (⟨.mark k, span⟩ :: used)) r) :
    Outcome finish (⟨.mark k, span⟩ :: ts) (.mark k :: goals) Open r :=
  taken (if_pos rfl) h

/-- One reader after another. -/
theorem bind {g : Goal} {r : ParseResult α m} {f : Parsed α m → ParseResult β n}
    (h : Outcome finish ts [g] Open' r) (hopen : ∀ used, Open' used → Open used)
    (hf : ∀ a mid hm, Reads r a mid → ∃ used, ts = used ++ mid ∧
      Outcome finish mid goals (fun used' => Open (used ++ used')) (f ⟨a, mid, hm⟩)) :
    Outcome finish ts (g :: goals) Open (r >>= f) := by
  cases h with
  | fails hts hr ho hruns =>
    exact .fails hts (by rw [hr]; rfl) (hopen _ ho) fun gs => hruns (goals ++ gs)
  | @reads a mid h hruns =>
    obtain ⟨hm, rfl⟩ := h
    obtain ⟨used, hts, hf⟩ := hf a mid hm ⟨hm, rfl⟩
    -- the second reader decides, on what the first one leaves
    cases hf with
    | reads h' hruns' => exact .reads h' fun gs => (hruns _).trans (hruns' gs)
    | fails hmid hr ho hruns' =>
      refine .fails (by rw [hts, hmid, List.append_assoc]) hr ho fun gs => ?_
      obtain ⟨gs', hrun, hstuck⟩ := hruns' gs
      exact ⟨gs', (hruns _).trans hrun, hstuck⟩

/-- A reader whose bound is relaxed does the same. -/
theorem relaxed {r : ParseResult α m} {hn : ∀ p : Parsed α m, p.rest.length < n}
    (h : Outcome finish ts goals Open r) :
    Outcome finish ts goals Open
      (r >>= fun p => (.ok ⟨p.value, p.rest, hn p⟩ : ParseResult α n)) := by
  cases h with
  | reads h hruns => exact .reads (reads_relaxed.2 h) hruns
  | fails hts hr ho hruns => exact .fails hts (by rw [hr]; rfl) ho hruns

end Outcome

/-! One lexeme. -/

variable {limit : Nat} {finish : Span} {ts : List Lexeme}

theorem take?_eq_none_iff_look {s : Spelling} : take? s ts = none ↔ look ts ≠ some s := by
  cases ts with
  | nil => simp [take?, look]
  | cons t ts => simp [take?, look]

/-- A reader of one spelling. -/
theorem outcome_take {s : Spelling} {g : Goal} {e : TokenKind → ParseError}
    {other : ParseResult Span ts.length} (ho : look ts ≠ some s → other = failNext finish ts e)
    (hg : ∀ next after, g.move next after =
      if next = some s then .take [] else .fail (e (Goal.kindOf next))) :
    Outcome finish ts [g] (· = []) (match take? s ts with
      | some p => .ok p
      | none => other) := by
  cases ht : take? s ts with
  | none =>
    have hlook := take?_eq_none_iff_look.1 ht
    exact .fail rfl (by rw [ho hlook, failNext_eq]) (by rw [hg, if_neg hlook])
  | some p =>
    obtain ⟨span, rest, h⟩ := p
    obtain rfl := take?_eq_some_iff.1 ht
    exact .take (by rw [hg, if_pos rfl]) .done

theorem outcome_mark (m : Mark) : Outcome finish ts [.mark m] (· = []) (mark finish m ts) :=
  outcome_take (fun _ => rfl) fun _ _ => rfl

theorem outcome_groupEnd : Outcome finish ts [.groupEnd] (· = []) (groupEnd finish ts) :=
  outcome_take (fun _ => rfl) fun _ _ => rfl

theorem outcome_keyword (hts : ∀ t ∈ ts, t.Sound limit) (k : Keyword) :
    Outcome finish ts [.keyword k] (· = []) (keyword finish k ts) := by
  refine outcome_take (fun _ => if_neg ?_) fun _ _ => rfl
  intro hu
  obtain ⟨p, hp⟩ := Option.isSome_iff_exists.1 hu
  obtain ⟨span, rest, h⟩ := p
  obtain rfl := take?_eq_some_iff.1 hp
  exact (List.forall_mem_cons.1 hts).1.proper

theorem outcome_ident (hts : ∀ t ∈ ts, t.Sound limit) :
    Outcome finish ts [.ident] (· = []) (ident finish ts) := by
  match ts with
  | [] => exact .fail rfl rfl rfl
  | ⟨spelling, span⟩ :: ts =>
    have hproper := (List.forall_mem_cons.1 hts).1.proper
    cases spelling with
    | name x => exact .take rfl .done
    | unreadable k => exact hproper.elim
    | keyword | integer | decimal | string | mark => exact .fail rfl rfl rfl

/-- In a source that is not too long, spans can be joined. -/
theorem Outcome.joined (hlimit : limit ≤ Span.maxLength) {β : Type} {n : Nat} {goals : List Goal}
    {Open : List Lexeme → Prop} {a b : Span} {f : Span → ParseResult β n} (ha : a.hi ≤ limit)
    (hb : b.hi ≤ limit)
    (h : ∀ s, a.join? b = some s → Outcome finish ts goals Open (f s)) :
    Outcome finish ts goals Open (Parser.joined a b >>= f) := by
  obtain ⟨s, hs, -⟩ := Span.join?_of_hi_le hlimit ha hb
  rw [Parser.joined, hs]
  exact h s hs

/-! One lexeme, and what is read after it. -/

namespace Outcome

variable {β : Type} {n : Nat} {goals : List Goal} {Open : List Lexeme → Prop}

theorem next_mark (m : Mark) {f : Parsed Span ts.length → ParseResult β n} (hopen : Open [])
    (hf : ∀ span mid h, ts = ⟨.mark m, span⟩ :: mid →
      Outcome finish mid goals (fun used => Open (⟨.mark m, span⟩ :: used)) (f ⟨span, mid, h⟩)) :
    Outcome finish ts (.mark m :: goals) Open (mark finish m ts >>= f) :=
  .bind (outcome_mark m) (by rintro _ rfl; exact hopen) fun span mid h hr =>
    have hts := reads_mark.1 hr
    ⟨[_], hts, hf span mid h hts⟩

theorem next_keyword (hs : ∀ t ∈ ts, t.Sound limit) (k : Keyword)
    {f : Parsed Span ts.length → ParseResult β n} (hopen : Open [])
    (hf : ∀ span mid h, ts = ⟨.keyword k, span⟩ :: mid →
      Outcome finish mid goals (fun used => Open (⟨.keyword k, span⟩ :: used))
        (f ⟨span, mid, h⟩)) :
    Outcome finish ts (.keyword k :: goals) Open (keyword finish k ts >>= f) :=
  .bind (outcome_keyword hs k) (by rintro _ rfl; exact hopen) fun span mid h hr =>
    have hts := reads_keyword.1 hr
    ⟨[_], hts, hf span mid h hts⟩

theorem next_ident (hs : ∀ t ∈ ts, t.Sound limit) {f : Parsed Ident ts.length → ParseResult β n}
    (hopen : Open [])
    (hf : ∀ x span mid h, ts = ⟨.name x, span⟩ :: mid →
      Outcome finish mid goals (fun used => Open (⟨.name x, span⟩ :: used))
        (f ⟨⟨x, span⟩, mid, h⟩)) :
    Outcome finish ts (.ident :: goals) Open (ident finish ts >>= f) :=
  .bind (outcome_ident hs) (by rintro _ rfl; exact hopen) fun ⟨x, span⟩ mid h hr =>
    have hts := reads_ident.1 hr
    ⟨[_], hts, hf x span mid h hts⟩

theorem next_groupEnd {f : Parsed Span ts.length → ParseResult β n} (hopen : Open [])
    (hf : ∀ span mid h, ts = ⟨.mark .closing, span⟩ :: mid →
      Outcome finish mid goals (fun used => Open (⟨.mark .closing, span⟩ :: used))
        (f ⟨span, mid, h⟩)) :
    Outcome finish ts (.groupEnd :: goals) Open (groupEnd finish ts >>= f) :=
  .bind outcome_groupEnd (by rintro _ rfl; exact hopen) fun span mid h hr =>
    have hts := reads_groupEnd.1 hr
    ⟨[_], hts, hf span mid h hts⟩

end Outcome

/-- After an argument comes another one or the end of the call. -/
theorem outcome_argumentEnd {β : Type} {n : Nat} {Open : List Lexeme → Prop}
    {f : Parsed (Option Span) ts.length → ParseResult β n} (hopen : Open [])
    (hclose : ∀ close rest h, ts = ⟨.mark .closing, close⟩ :: rest →
      Outcome finish rest [] (fun used => Open (⟨.mark .closing, close⟩ :: used))
        (f ⟨some close, rest, h⟩))
    (hcomma : ∀ comma rest h, ts = ⟨.mark .comma, comma⟩ :: rest →
      Outcome finish rest [.argumentsFrom] (fun used => Open (⟨.mark .comma, comma⟩ :: used))
        (f ⟨none, rest, h⟩)) :
    Outcome finish ts [.argumentEnd] Open (argumentEnd finish ts >>= f) := by
  cases hc : take? (.mark .comma) ts with
  | some p =>
    obtain ⟨comma, rest, h⟩ := p
    obtain rfl := take?_eq_some_iff.1 hc
    exact .take rfl (hcomma comma rest h rfl)
  | none =>
    cases hp : take? (.mark .closing) ts with
    | some p =>
      obtain ⟨close, rest, h⟩ := p
      obtain rfl := take?_eq_some_iff.1 hp
      exact .take rfl (hclose close rest h rfl)
    | none =>
      refine .fail hopen (e := .unexpectedAny [.mark .comma, .mark .closing]
        (Goal.kindOf (look ts))) ?_ ?_
      · rw [argumentEnd, hc, hp, failNext_eq]
        rfl
      · rw [Goal.move, if_neg (take?_eq_none_iff_look.1 hc), if_neg (take?_eq_none_iff_look.1 hp)]

/-- What opens one thing opens another that it begins, with more words put after it. -/
theorem Opens.around {room room' : Nat} {P Q : List Word → Prop} {used whole : List Lexeme}
    (post : List Word) (h : Opens room P used) (hpost : ∀ w ∈ post, w ∈ fillers)
    (hroom : used.length + room + post.length ≤ whole.length + room')
    (hPQ : ∀ ws, P (wordsOf used ++ ws) → Q (wordsOf whole ++ (ws ++ post))) :
    Opens room' Q whole := by
  obtain ⟨more, hmore, hlen, hP⟩ := h
  refine ⟨more ++ post, List.forall_mem_append.2 ⟨hmore, hpost⟩, ?_, hPQ _ hP⟩
  simp only [List.length_append]
  omega

end LetLang.Parser
