import LetLang.Proofs.Tree.Reads

/-!
The reading of a program as work on a list of goals. The first goal uses up the next lexeme, or
gives way to other goals, or fails; which of these depends on the next two spellings only. So a run
is the same on all lists of lexemes that agree up to two lexemes after its end, and it has one end.
-/

namespace LetLang.Parser

inductive Goal where
  | mark (m : Mark)
  | keyword (k : Keyword)
  | ident
  | groupEnd
  | argumentEnd
  | expr (power : Nat)
  | operators (power : Nat)
  | operand
  | arguments
  | argumentsFrom
  | initializer
  | stmt
  | block (stops : List Keyword)
  | otherwise
  deriving DecidableEq

inductive Move where
  /-- The next lexeme is used up, and these goals are left of the first one. -/
  | take (goals : List Goal)
  /-- The first goal gives way to these. -/
  | replace (goals : List Goal)
  | fail (e : ParseError)
  deriving DecidableEq

namespace Goal

def kindOf : Option Spelling → TokenKind
  | none => .eof
  | some s => s.kind

/-- The goals of a declaration after its keyword. -/
def declaration : List Goal := [.ident, .mark .colon, .ident, .initializer, .mark .semicolon]

def assignment : List Goal := [.ident, .mark .assign, .expr 0, .mark .semicolon]

def exprStmt : List Goal := [.expr 0, .mark .semicolon]

def branch : List Goal :=
  [.expr 0, .keyword .THEN, .block [.ELSE, .END], .otherwise, .keyword .END]

def loop : List Goal := [.expr 0, .keyword .DO, .block [.END], .keyword .END]

def moveOperators (power : Nat) : Option Operator → Move
  | none => .replace []
  | some op =>
    if op.leftPower < power then .replace [] else .take [.expr op.rightPower, .operators power]

def moveOperand (next after : Option Spelling) : Move :=
  if (next.bind literal?).isSome then .take []
  else
    match next with
    | some (.name _) =>
      if after = some (.mark .opening) then .take [.mark .opening, .arguments] else .take []
    | some (.mark .opening) => .take [.expr 0, .groupEnd]
    | some (.keyword k) => .fail (.keywordInExpr k)
    | _ => .fail (.tokenInExpr (kindOf next))

def moveStmt (next after : Option Spelling) : Move :=
  match next with
  | some (.keyword .LET) => .take declaration
  | some (.keyword .IF) => .take branch
  | some (.keyword .WHILE) => .take loop
  | _ =>
    .replace (if kindOf next = .identifier ∧ kindOf after = .mark .assign then assignment
      else exprStmt)

def stopsBlock (stops : List Keyword) : Option Spelling → Bool
  | none => true
  | some (.keyword k) => stops.contains k
  | some _ => false

/-- What becomes of the first goal, with what the next two lexemes spell. -/
def move (next after : Option Spelling) : Goal → Move
  | mark m =>
    if next = some (.mark m) then .take []
    else .fail (.unexpected (.token (.mark m)) (kindOf next))
  | keyword k =>
    if next = some (.keyword k) then .take [] else .fail (.unexpected (.keyword k) (kindOf next))
  | ident =>
    match next with
    | some (.name _) => .take []
    | some (.keyword k) => .fail (.keywordAsName k)
    | _ => .fail (.unexpected (.token .identifier) (kindOf next))
  | groupEnd => if next = some (.mark .closing) then .take [] else .fail .unclosedGroup
  | argumentEnd =>
    if next = some (.mark .comma) then .take [.argumentsFrom]
    else if next = some (.mark .closing) then .take []
    else .fail (.unexpectedAny [.mark .comma, .mark .closing] (kindOf next))
  | expr power => .replace [.operand, .operators power]
  | operators power => moveOperators power (next.bind operator?)
  | operand => moveOperand next after
  | arguments => if next = some (.mark .closing) then .take [] else .replace [.argumentsFrom]
  | argumentsFrom => .replace [.expr 0, .argumentEnd]
  | initializer => if next = some (.mark .assign) then .take [.expr 0] else .replace []
  | stmt => moveStmt next after
  | block stops => .replace (if stopsBlock stops next then [] else [.stmt, .block stops])
  | otherwise => if next = some (.keyword .ELSE) then .take [.block [.END]] else .replace []

/-- Only whole sources are found empty, and only texts that are not lexed have lexical errors. -/
theorem move_ne_fail {next after : Option Spelling} {g : Goal} {e : ParseError}
    (h : g.move next after = .fail e) : e ≠ .emptySource ∧ ∀ error, e ≠ .lexer error := by
  cases g <;> simp only [move, moveOperators, moveOperand, moveStmt] at h <;>
    (repeat' split at h) <;> simp_all <;> subst h <;> simp

end Goal

/-- What the next lexeme spells. -/
def look (ts : List Lexeme) : Option Spelling := ts.head?.map (·.spelling)

inductive Runs : List Goal → List Lexeme → List Goal → List Lexeme → Prop
  | refl {gs : List Goal} {ts : List Lexeme} : Runs gs ts gs ts
  | take {g : Goal} {gs hs gs' : List Goal} {t : Lexeme} {ts rest : List Lexeme} :
      g.move (some t.spelling) (look ts) = .take hs → Runs (hs ++ gs) ts gs' rest →
      Runs (g :: gs) (t :: ts) gs' rest
  | replace {g : Goal} {gs hs gs' : List Goal} {ts rest : List Lexeme} :
      g.move (look ts) (look ts.tail) = .replace hs → Runs (hs ++ gs) ts gs' rest →
      Runs (g :: gs) ts gs' rest

/-- The first goal fails. -/
def Stuck (gs : List Goal) (ts : List Lexeme) (e : ParseError) : Prop :=
  ∃ g gs', gs = g :: gs' ∧ g.move (look ts) (look ts.tail) = .fail e

/-- Nothing is left to do, or nothing can be done. -/
def Ended (gs : List Goal) (ts : List Lexeme) : Prop := gs = [] ∨ ∃ e, Stuck gs ts e

namespace Runs

variable {gs gs' gs'' : List Goal} {ts rest rest' : List Lexeme}

theorem trans (h : Runs gs ts gs' rest) (h' : Runs gs' rest gs'' rest') :
    Runs gs ts gs'' rest' := by
  induction h with
  | refl => exact h'
  | take hm _ ih => exact .take hm (ih h')
  | replace hm _ ih => exact .replace hm (ih h')

theorem of_ended (h : Runs gs ts gs' rest) (hend : Ended gs ts) : gs' = gs ∧ rest = ts := by
  rcases hend with rfl | ⟨e, g, gs, rfl, he⟩
  · cases h
    exact ⟨rfl, rfl⟩
  · cases h with
    | refl => exact ⟨rfl, rfl⟩
    | take hm _ => cases hm.symm.trans he
    | replace hm _ => cases hm.symm.trans he

/-- Two runs to an end are the same. -/
theorem unique (h : Runs gs ts gs' rest) (hend : Ended gs' rest) (h' : Runs gs ts gs'' rest')
    (hend' : Ended gs'' rest') : gs' = gs'' ∧ rest = rest' := by
  induction h with
  | refl =>
    obtain ⟨rfl, rfl⟩ := h'.of_ended hend
    exact ⟨rfl, rfl⟩
  | take hm hrun ih =>
    cases h' with
    | refl => exact ((take hm hrun).of_ended hend').imp_left id
    | take hm' hrun' =>
      cases hm.symm.trans hm'
      exact ih hend hrun'
    | replace hm' _ => cases hm.symm.trans hm'
  | replace hm hrun ih =>
    cases h' with
    | refl => exact ((replace hm hrun).of_ended hend').imp_left id
    | take hm' _ => cases hm.symm.trans hm'
    | replace hm' hrun' =>
      cases hm.symm.trans hm'
      exact ih hend hrun'

end Runs

/-! Lists that spell the same at their start. -/

def Agree (n : Nat) (ts us : List Lexeme) : Prop :=
  (ts.map (·.spelling)).take n = (us.map (·.spelling)).take n

namespace Agree

variable {n : Nat} {t : Lexeme} {ts us : List Lexeme}

theorem look_eq (h : Agree (n + 1) ts us) : look ts = look us := by
  cases ts <;> cases us <;> simp_all [Agree, look]

theorem cons_iff : Agree (n + 1) (t :: ts) us ↔
    ∃ u us', us = u :: us' ∧ u.spelling = t.spelling ∧ Agree n ts us' := by
  cases us with
  | nil => simp [Agree]
  | cons u us =>
    simp only [Agree, List.map_cons, List.take_succ_cons, List.cons.injEq]
    grind

theorem tail (h : Agree (n + 1) ts us) : Agree n ts.tail us.tail := by
  cases ts with
  | nil =>
    cases us with
    | nil => rfl
    | cons u us => simp [Agree] at h
  | cons t ts =>
    obtain ⟨u, us', rfl, -, h⟩ := cons_iff.1 h
    exact h

end Agree

/-- A run is known from the lexemes it uses up and the two after them. -/
theorem Runs.of_agree {gs gs' : List Goal} {ts rest : List Lexeme} (h : Runs gs ts gs' rest) :
    ∃ used, ts = used ++ rest ∧ ∀ us, Agree (used.length + 2) ts us →
      ∃ used' rest', us = used' ++ rest' ∧ used'.length = used.length ∧ Agree 2 rest rest' ∧
        Runs gs us gs' rest' := by
  induction h with
  | refl => exact ⟨[], rfl, fun us hus => ⟨[], us, rfl, rfl, hus, .refl⟩⟩
  | @take g _ _ _ t _ _ hm _ ih =>
    obtain ⟨used, rfl, hgo⟩ := ih
    refine ⟨t :: used, rfl, fun us hus => ?_⟩
    obtain ⟨u, us, rfl, hu, hus⟩ := Agree.cons_iff.1 hus
    obtain ⟨used', rest', rfl, hlen, hagree, hrun⟩ := hgo us hus
    -- the move was chosen by this lexeme and the next one, which are the same here
    rw [← hu, hus.look_eq] at hm
    exact ⟨u :: used', rest', rfl, by simp [hlen], hagree, .take hm hrun⟩
  | replace hm _ ih =>
    obtain ⟨used, rfl, hgo⟩ := ih
    refine ⟨used, rfl, fun us hus => ?_⟩
    obtain ⟨used', rest', rfl, hlen, hagree, hrun⟩ := hgo us hus
    rw [hus.look_eq, hus.tail.look_eq] at hm
    exact ⟨used', rest', rfl, hlen, hagree, .replace hm hrun⟩

theorem Stuck.of_agree {gs : List Goal} {ts us : List Lexeme} {e : ParseError}
    (h : Stuck gs ts e) (hus : Agree 2 ts us) : Stuck gs us e := by
  obtain ⟨g, gs', rfl, hm⟩ := h
  rw [hus.look_eq, hus.tail.look_eq] at hm
  exact ⟨g, gs', rfl, hm⟩

end LetLang.Parser
