import LetLang.Proofs.Compiler.Results
import LetLang.Proofs.Literal.Decimal
import LetLang.Proofs.Tree.Alike
import LetLang.Proofs.Typing.Checking

/-!
Typing only annotates. A typed tree without its types and callees is the tree it was made from, node
for node and span for span. A number may have lost leading zeros or a sign, since the typed tree
keeps its value; and where a type was named is not kept.
-/

namespace LetLang

open Rules

/-! Numbers by their values. -/

theorem Text.spells_integerNumeral (n : Int) : Spells (integerNumeral n) n := by
  cases n with
  | ofNat n =>
    have := Spells.unsigned (isDigits_numeral n)
    rwa [digitsValue_numeral] at this
  | negSucc n =>
    have := Spells.minus (isDigits_numeral (n + 1))
    rwa [digitsValue_numeral] at this

/-- The same literal, with numbers compared by value. -/
inductive RawLiteral.SameValue : RawLiteral → RawLiteral → Prop
  | bool {b : Bool} : SameValue (.bool b) (.bool b)
  | integer {digits digits' : String} {n : Int} :
      Spells digits.toList n → Spells digits'.toList n →
      SameValue (.integer digits) (.integer digits')
  | decimal {digits digits' : String} {q : Rat} :
      SpellsFraction digits.toList q → SpellsFraction digits'.toList q →
      SameValue (.decimal digits) (.decimal digits')
  | string {contents : String} : SameValue (.string contents) (.string contents)

/-- A checked literal has the value of what was written. -/
theorem Rules.LiteralTyped.sameValue {raw : RawLiteral} {l : Literal} (h : LiteralTyped raw l) :
    raw.SameValue l.raw := by
  cases h with
  | bool => exact .bool
  | @integer digits i h =>
    refine .integer h ?_
    rw [BoundedInteger.text, String.toList_ofList]
    exact Text.spells_integerNumeral i.value
  | @decimal digits whole d hdigits hwhole hvalue =>
    have hwritten := SpellsFraction.point hwhole d.isDigits_fraction
    rw [← hdigits] at hwritten
    refine .decimal hwritten ?_
    rw [BoundedDecimal.toList_text]
    apply spellsFraction_of_digitsValue (Text.isDigits_numeral _) d.isDigits_fraction
    rw [Text.digitsValue_numeral, hvalue]
  | string => exact .string

/-! Trees without their annotations. -/

namespace Expr

mutual

def forget : Expr .typed → Expr .parsed
  | literal value s _ => .literal value.raw s ()
  | group inner s _ => .group inner.forget s ()
  | binary op lhs rhs s _ => .binary op lhs.forget rhs.forget s ()
  | var x s _ => .var x s ()
  | call x args _ s _ => .call x (forgetAll args) () s ()

def forgetAll : List (Expr .typed) → List (Expr .parsed)
  | [] => []
  | e :: es => e.forget :: forgetAll es

end

end Expr

namespace Stmt

mutual

/-- A type is named again, at no place in particular. -/
def forget : Stmt .typed → Stmt .parsed
  | expr e s => .expr e.forget s
  | declaration x t initial s => .declaration x ⟨Ty.name t, ⟨0, 0⟩⟩ (initial.map Expr.forget) s
  | assignment x e s => .assignment x e.forget s
  | branch c yes no s => .branch c.forget (forgetAll yes) (forgetAll no) s
  | loop c body s => .loop c.forget (forgetAll body) s

def forgetAll : Block .typed → Block .parsed
  | [] => []
  | s :: ss => s.forget :: forgetAll ss

end

end Stmt

/-- The same but for the values of numbers, which may be spelled in another way, and the places
of the names of types. -/
def Likeness.values : Likeness .parsed := ⟨Eq, fun x y => x.name = y.name, RawLiteral.SameValue⟩

section Forgetting

variable {catalog : Catalog}

mutual

theorem Rules.ExprTyped.like_forget {env : Env} {e : Expr .parsed} {e' : Expr .typed} :
    ExprTyped catalog env e e' → e.Like .values e'.forget
  | .literal h => .literal h.sameValue rfl
  | .group h => .group h.like_forget rfl
  | .binary hl hr _ => .binary hl.like_forget hr.like_forget rfl
  | .var _ => .var ⟨rfl, rfl⟩ rfl
  | .call _ hargs => .call ⟨rfl, rfl⟩ hargs.likeAll_forgetAll rfl

theorem Rules.ArgumentsTyped.likeAll_forgetAll {env : Env} {es : List (Expr .parsed)}
    {ts : List Ty} {es' : List (Expr .typed)} :
    ArgumentsTyped catalog env es ts es' → Expr.LikeAll .values es (Expr.forgetAll es')
  | .nil => .nil
  | .cons h _ hes => .cons h.like_forget hes.likeAll_forgetAll

end

theorem Rules.InitialTyped.rel_forget {env : Env} {t : Ty} {initial : Option (Expr .parsed)}
    {initial' : Option (Expr .typed)} (h : InitialTyped catalog env t initial initial') :
    Option.Rel (Expr.Like .values) initial (initial'.map Expr.forget) := by
  cases h with
  | none => exact .none
  | some h => exact .some h.like_forget

mutual

theorem Rules.StmtTyped.like_forget {env env' : Env} {s : Stmt .parsed} {s' : Stmt .typed} :
    StmtTyped catalog env s s' env' → s.Like .values s'.forget
  | .expr _ h => .expr h.like_forget rfl
  | .declaration _ hname _ h _ => .declaration ⟨rfl, rfl⟩ hname.symm h.rel_forget rfl
  | .assignment _ h _ => .assignment ⟨rfl, rfl⟩ h.like_forget rfl
  | .branch hc _ _ hyes hno =>
    .branch hc.like_forget hyes.likeAll_forgetAll hno.likeAll_forgetAll rfl
  | .loop hc _ hbody => .loop hc.like_forget hbody.likeAll_forgetAll rfl

theorem Rules.BlockTyped.likeAll_forgetAll {env env' : Env} {ss : Block .parsed}
    {ss' : Block .typed} :
    BlockTyped catalog env ss ss' env' → Stmt.LikeAll .values ss (Stmt.forgetAll ss')
  | .nil => .nil
  | .cons h hss => .cons h.like_forget hss.likeAll_forgetAll

end

end Forgetting

namespace Typing

/-- Every program, catalog and scope: what typing gives is the program with annotations. -/
theorem likeAll_forgetAll_of_program (catalog : Catalog) (scope : Scope) (b : Block .parsed)
    (b' : Block .typed) (h : (program catalog scope b).1 = .ok b') :
    Stmt.LikeAll .values b (Stmt.forgetAll b') :=
  ((block_gives_iff scope b).1 ⟨block_of_program h, rfl⟩).likeAll_forgetAll

theorem likeAll_forgetAll_of_padded_numbers :
    ∃ b b', parseProgram "LET x : DECIMAL = abs(007); print(01.50);" = .ok b ∧
      (program .standard .root b).1 = .ok b' ∧ Stmt.LikeAll .values b (Stmt.forgetAll b') := by
  have htyped : (Compiler.typedIn .standard .root
      "LET x : DECIMAL = abs(007); print(01.50);").1.isOk := by decide +kernel
  obtain ⟨b, b', hb, hb'⟩ := Compiler.exists_typed_of_isOk htyped
  exact ⟨b, b', hb, hb', likeAll_forgetAll_of_program _ _ _ _ hb'⟩

end Typing

end LetLang
