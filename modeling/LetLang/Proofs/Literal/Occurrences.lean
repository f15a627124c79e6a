import LetLang.Proofs.Literal.Values
import LetLang.Proofs.Tree.Places
import LetLang.Proofs.Typing.Blame
import LetLang.Proofs.Typing.Rules

/-! Where literals stand. The literals of a tree, from left to right, are those of the tokens that
it was read from, each at its place; typing keeps their order and checks each one, and a literal
that is refused is one of them. -/

namespace LetLang

open Rules

namespace Expr

variable {p : Phase}

mutual

/-- The literals of an expression, from left to right. -/
def literals : Expr p → List (Located p.Constant)
  | literal value span _ => [⟨span, value⟩]
  | group inner _ _ => inner.literals
  | binary _ lhs rhs _ _ => lhs.literals ++ rhs.literals
  | var _ _ _ => []
  | call _ args _ _ _ => literalsAll args

def literalsAll : List (Expr p) → List (Located p.Constant)
  | [] => []
  | e :: es => e.literals ++ literalsAll es

end

end Expr

namespace Stmt

variable {p : Phase}

mutual

def literals : Stmt p → List (Located p.Constant)
  | expr e _ => e.literals
  | declaration _ _ none _ => []
  | declaration _ _ (some e) _ => e.literals
  | assignment _ e _ => e.literals
  | branch test yes no _ => test.literals ++ (literalsAll yes ++ literalsAll no)
  | loop test body _ => test.literals ++ literalsAll body

def literalsAll : Block p → List (Located p.Constant)
  | [] => []
  | s :: ss => s.literals ++ literalsAll ss

end

end Stmt

/-! Literals among lexemes. -/

def Lexeme.literal? (t : Lexeme) : Option (Located RawLiteral) :=
  (Parser.literal? t.spelling).map (⟨t.span, ·⟩)

theorem Lexeme.filterMap_cons_none {t : Lexeme} {ts : List Lexeme}
    (h : Parser.literal? t.spelling = none) :
    (t :: ts).filterMap Lexeme.literal? = ts.filterMap Lexeme.literal? := by
  rw [List.filterMap_cons, Lexeme.literal?, h]
  rfl

mutual

theorem ExprAt.literals_eq {n : Nat} {ts : List Lexeme} {e : Expr .parsed} :
    ExprAt n ts e → ts.filterMap Lexeme.literal? = e.literals
  | .chain _ hl hr _ => by
    rw [List.filterMap_append, Lexeme.filterMap_cons_none rfl, hl.literals_eq, hr.literals_eq,
      Expr.literals]
  | .tighter h => h.literals_eq
  | .literal hv => by
    rw [List.filterMap_cons, Lexeme.literal?, hv]
    rfl
  | .var => rfl
  | .call hargs _ => by
    rw [Lexeme.filterMap_cons_none rfl, Lexeme.filterMap_cons_none rfl, List.filterMap_append,
      Lexeme.filterMap_cons_none rfl, hargs.literals_eq, Expr.literals]
    exact List.append_nil _
  | .group h _ => by
    rw [Lexeme.filterMap_cons_none rfl, List.filterMap_append, Lexeme.filterMap_cons_none rfl,
      h.literals_eq, Expr.literals]
    exact List.append_nil _

theorem ArgumentsAt.literals_eq {ts : List Lexeme} {es : List (Expr .parsed)} :
    ArgumentsAt ts es → ts.filterMap Lexeme.literal? = Expr.literalsAll es
  | .nil => rfl
  | .last h => by
    rw [h.literals_eq, Expr.literalsAll, Expr.literalsAll, List.append_nil]
  | .more h hmore => by
    rw [List.filterMap_append, Lexeme.filterMap_cons_none rfl, h.literals_eq, hmore.literals_eq]
    rfl

end

theorem InitialAt.literals_eq {ts : List Lexeme} {initial : Option (Expr .parsed)}
    {x ty : Ident} {span : Span} (h : InitialAt ts initial) :
    ts.filterMap Lexeme.literal? = (Stmt.declaration x ty initial span).literals := by
  cases h with
  | none => rfl
  | some h =>
    rw [Lexeme.filterMap_cons_none rfl, h.literals_eq]
    rfl

mutual

theorem StmtAt.literals_eq {ts : List Lexeme} {s : Stmt .parsed} :
    StmtAt ts s → ts.filterMap Lexeme.literal? = s.literals
  | .expr h _ => by
    rw [List.filterMap_append, Lexeme.filterMap_cons_none rfl, h.literals_eq, Stmt.literals]
    exact List.append_nil _
  | .declaration h _ => by
    rw [Lexeme.filterMap_cons_none rfl, Lexeme.filterMap_cons_none rfl,
      Lexeme.filterMap_cons_none rfl, Lexeme.filterMap_cons_none rfl, List.filterMap_append,
      Lexeme.filterMap_cons_none rfl, h.literals_eq]
    exact List.append_nil _
  | .assignment h _ => by
    rw [Lexeme.filterMap_cons_none rfl, Lexeme.filterMap_cons_none rfl, List.filterMap_append,
      Lexeme.filterMap_cons_none rfl, h.literals_eq, Stmt.literals]
    exact List.append_nil _
  | .branch hc hyes hno _ => by
    rw [Lexeme.filterMap_cons_none rfl, List.filterMap_append, Lexeme.filterMap_cons_none rfl,
      List.filterMap_append, List.filterMap_append, Lexeme.filterMap_cons_none rfl,
      hc.literals_eq, hyes.literals_eq, hno.literals_eq, List.filterMap_nil, List.append_nil,
      Stmt.literals]
  | .loop hc hbody _ => by
    rw [Lexeme.filterMap_cons_none rfl, List.filterMap_append, Lexeme.filterMap_cons_none rfl,
      List.filterMap_append, Lexeme.filterMap_cons_none rfl, hc.literals_eq, hbody.literals_eq,
      List.filterMap_nil, List.append_nil, Stmt.literals]

theorem ElseAt.literals_eq {ts : List Lexeme} {ss : Block .parsed} :
    ElseAt ts ss → ts.filterMap Lexeme.literal? = Stmt.literalsAll ss
  | .none => rfl
  | .some h => by rw [Lexeme.filterMap_cons_none rfl, h.literals_eq]

theorem BlockAt.literals_eq {ts : List Lexeme} {ss : Block .parsed} :
    BlockAt ts ss → ts.filterMap Lexeme.literal? = Stmt.literalsAll ss
  | .nil => rfl
  | .cons h hss => by
    rw [List.filterMap_append, h.literals_eq, hss.literals_eq, Stmt.literalsAll]

end

/-! Literals under typing. -/

/-- These literals pass their checks and are then those. -/
def Checked (ls : List (Located RawLiteral)) (ls' : List (Located Literal)) : Prop :=
  ls.map (Located.map RawLiteral.check) = ls'.map (Located.map .ok)

theorem Checked.append {ls ms : List (Located RawLiteral)} {ls' ms' : List (Located Literal)}
    (h : Checked ls ls') (h' : Checked ms ms') : Checked (ls ++ ms) (ls' ++ ms') := by
  rw [Checked, List.map_append, List.map_append, h, h']

variable {catalog : Catalog}

mutual

theorem Rules.ExprTyped.checked {env : Env} {e : Expr .parsed} {e' : Expr .typed} :
    ExprTyped catalog env e e' → Checked e.literals e'.literals
  | .literal h => by
    rw [Checked, Expr.literals, Expr.literals, List.map_singleton, List.map_singleton,
      Located.map, RawLiteral.check_eq_ok_iff.2 h]
    rfl
  | .group h => h.checked
  | .binary hl hr _ => hl.checked.append hr.checked
  | .var _ => rfl
  | .call _ hargs => hargs.checked

theorem Rules.ArgumentsTyped.checked {env : Env} {es : List (Expr .parsed)} {ts : List Ty}
    {es' : List (Expr .typed)} :
    ArgumentsTyped catalog env es ts es' → Checked (Expr.literalsAll es) (Expr.literalsAll es')
  | .nil => rfl
  | .cons h _ hes => h.checked.append hes.checked

end

mutual

theorem Rules.StmtTyped.checked {env env' : Env} {s : Stmt .parsed} {s' : Stmt .typed} :
    StmtTyped catalog env s s' env' → Checked s.literals s'.literals
  | .expr _ h => h.checked
  | .declaration _ _ _ .none _ => rfl
  | .declaration _ _ _ (.some h _) _ => h.checked
  | .assignment _ h _ => h.checked
  | .branch hc _ _ hyes hno => hc.checked.append (hyes.checked.append hno.checked)
  | .loop hc _ hbody => hc.checked.append hbody.checked

theorem Rules.BlockTyped.checked {env env' : Env} {ss : Block .parsed} {ss' : Block .typed} :
    BlockTyped catalog env ss ss' env' → Checked (Stmt.literalsAll ss) (Stmt.literalsAll ss')
  | .nil => rfl
  | .cons h hss => h.checked.append hss.checked

end

/-! Literals that are refused. -/

namespace Typing

/-- One of these literals is refused at this place, for this reason. -/
def Refuses (span : Span) (e : LiteralError) (ls : List (Located RawLiteral)) : Prop :=
  ∃ l ∈ ls, l.span = span ∧ l.value.check = .error e

variable {span : Span} {err : LiteralError} {ls ms : List (Located RawLiteral)}

theorem Refuses.left (h : Refuses span err ls) : Refuses span err (ls ++ ms) :=
  let ⟨l, hl, h⟩ := h
  ⟨l, List.mem_append_left _ hl, h⟩

theorem Refuses.right (h : Refuses span err ms) : Refuses span err (ls ++ ms) :=
  let ⟨l, hl, h⟩ := h
  ⟨l, List.mem_append_right _ hl, h⟩

variable {scope : Scope}

mutual

theorem refuses_of_expr {e : Expr .parsed}
    (h : expr catalog scope e = .error ⟨span, .literal err⟩) : Refuses span err e.literals := by
  match e with
  | .literal raw s _ =>
    simp only [expr] at h
    split at h
    · cases h
    · next e he =>
      cases h
      exact ⟨_, List.mem_singleton_self _, rfl, he⟩
  | .group inner s _ =>
    simp only [expr] at h
    rw [Expr.literals]
    rcases Except.bind_eq_error_iff.1 h with h | ⟨_, -, h⟩
    · exact refuses_of_expr h
    · cases h
  | .binary op lhs rhs s _ =>
    simp only [expr] at h
    rcases Except.bind_eq_error_iff.1 h with h | ⟨_, -, h⟩
    · exact (refuses_of_expr h).left
    rcases Except.bind_eq_error_iff.1 h with h | ⟨_, -, h⟩
    · exact (refuses_of_expr h).right
    · split at h <;> cases h
  | .var name s _ =>
    simp only [expr] at h
    split at h <;> cases h
  | .call name args _ s _ =>
    simp only [expr] at h
    split at h
    · cases h
    rcases Except.bind_eq_error_iff.1 h with h | ⟨_, -, h⟩
    · exact refuses_of_arguments h
    · cases h

theorem refuses_of_arguments {args : List (Expr .parsed)} {params : List Ty}
    (h : arguments catalog scope args params = .error ⟨span, .literal err⟩) :
    Refuses span err (Expr.literalsAll args) := by
  match args, params with
  | [], _ => cases h
  | _ :: _, [] => cases h
  | arg :: args, param :: params =>
    simp only [arguments] at h
    rcases Except.bind_eq_error_iff.1 h with h | ⟨_, -, h⟩
    · exact (refuses_of_expr h).left
    split at h
    · rcases Except.bind_eq_error_iff.1 h with h | ⟨_, -, h⟩
      · exact (refuses_of_arguments h).right
      · cases h
    · cases h

end

theorem refuses_of_value {target : Ty} {e : Expr .parsed}
    (h : value catalog scope target e = .error ⟨span, .literal err⟩) :
    Refuses span err e.literals := by
  rcases Except.bind_eq_error_iff.1 h with h | ⟨_, -, h⟩
  · exact refuses_of_expr h
  · split at h <;> cases h

theorem refuses_of_condition {e : Expr .parsed}
    (h : condition catalog scope e = .error ⟨span, .literal err⟩) :
    Refuses span err e.literals := by
  rcases Except.bind_eq_error_iff.1 h with h | ⟨_, -, h⟩
  · exact refuses_of_expr h
  · split at h <;> cases h

theorem refuses_of_declaration {name ty : Ident} {initial : Option (Expr .parsed)} {s : Span}
    (h : (declaration catalog scope name ty initial s).1 = .error ⟨span, .literal err⟩) :
    Refuses span err (Stmt.declaration name ty initial s).literals := by
  unfold declaration at h
  dsimp only at h
  split at h
  · next e he =>
    cases h
    rcases Except.bind_eq_error_iff.1 he with he | ⟨_, -, he⟩
    · unfold declaredType at he
      split at he
      · cases he
      · split at he <;> cases he
    rcases Except.bind_eq_error_iff.1 he with he | ⟨_, -, he⟩
    · cases initial with
      | none => cases he
      | some e => exact refuses_of_value (Except.map_eq_error_iff.1 he)
    · cases he
  · dsimp only at h
    split at h <;> cases h

mutual

theorem refuses_of_stmt {scope : Scope} {s : Stmt .parsed}
    (h : (stmt catalog scope s).1 = .error ⟨span, .literal err⟩) : Refuses span err s.literals := by
  match s with
  | .expr e s =>
    simp only [stmt] at h
    split at h
    · exact refuses_of_expr (Except.map_eq_error_iff.1 h)
    · cases h
  | .declaration name ty initial s =>
    simp only [stmt] at h
    exact refuses_of_declaration h
  | .assignment target e s =>
    simp only [stmt] at h
    split at h
    · cases h
    · exact refuses_of_value (Except.map_eq_error_iff.1 h)
  | .branch test yes no s =>
    simp only [stmt] at h
    rcases Except.bind_eq_error_iff.1 h with h | ⟨_, -, h⟩
    · exact (refuses_of_condition h).left
    split at h
    · cases h
    rcases Except.bind_eq_error_iff.1 h with h | ⟨_, -, h⟩
    · exact (refuses_of_block h).left.right
    rcases Except.bind_eq_error_iff.1 h with h | ⟨_, -, h⟩
    · exact (refuses_of_block h).right.right
    · cases h
  | .loop test body s =>
    simp only [stmt] at h
    rcases Except.bind_eq_error_iff.1 h with h | ⟨_, -, h⟩
    · exact (refuses_of_condition h).left
    rcases Except.bind_eq_error_iff.1 h with h | ⟨_, -, h⟩
    · exact (refuses_of_block h).right
    · cases h

theorem refuses_of_block {scope : Scope} {ss : Block .parsed}
    (h : (block catalog scope ss).1 = .error ⟨span, .literal err⟩) :
    Refuses span err (Stmt.literalsAll ss) := by
  match ss with
  | [] =>
    simp only [block] at h
    cases h
  | s :: ss =>
    rcases block_cons_eq_error_iff.1 h with h | ⟨_, _, -, h⟩
    · exact (refuses_of_stmt h).left
    · exact (refuses_of_block h).right

end

theorem refuses_of_program {ss : Block .parsed}
    (h : (program catalog scope ss).1 = .error ⟨span, .literal err⟩) :
    Refuses span err (Stmt.literalsAll ss) := by
  unfold program at h
  split at h
  · cases h
  · exact refuses_of_block h

end Typing

end LetLang
