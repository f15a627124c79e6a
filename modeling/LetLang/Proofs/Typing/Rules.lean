import LetLang.Typing

/-!
The typing rules. They speak of environments, which know the names of the innermost block and those
around it, and relate a tree to its typed tree. A block is typed in an environment and leaves one
with its own declarations.
-/

namespace LetLang

/-- What names stand for in the innermost block, and in the blocks around it. -/
@[ext] structure Env where
  here : String → Option Ty
  outside : String → Option Ty

namespace Env

/-- The innermost of the visible bindings of a name. -/
inductive Sees (env : Env) (x : String) (t : Ty) : Prop
  | here : env.here x = some t → Sees env x t
  | outside : env.here x = none → env.outside x = some t → Sees env x t

def bind (env : Env) (x : String) (t : Ty) : Env :=
  { env with here := fun y => if y = x then some t else env.here y }

/-- The environment of a fresh block. -/
def nested (env : Env) : Env := ⟨fun _ => none, fun x => (env.here x).or (env.outside x)⟩

end Env

namespace Rules

inductive Assignable : Ty → Ty → Prop
  | same {t : Ty} : Assignable t t
  | widened : Assignable .integer .decimal
  | any {t : Ty} : t ≠ .void → Assignable t .any

inductive Numeric : Ty → Prop
  | integer : Numeric .integer
  | decimal : Numeric .decimal

inductive OperatorTyped : Operator → Ty → Ty → Ty → Prop
  | equality {op : Operator} {t : Ty} :
      op ∈ [.eq, .notEq] → t ≠ .void → OperatorTyped op t t .boolean
  | integer {op : Operator} :
      op ∈ [.add, .sub, .mul, .div] → OperatorTyped op .integer .integer .integer
  | decimal {op : Operator} {a b : Ty} :
      op ∈ [.add, .sub, .mul, .div] → Numeric a → Numeric b → a = .decimal ∨ b = .decimal →
      OperatorTyped op a b .decimal

/-- Digits, with or without a sign, that spell a number. -/
inductive Spells : List Char → Int → Prop
  | unsigned {ds : List Char} : Text.isDigits ds → Spells ds (Text.digitsValue ds)
  | plus {ds : List Char} : Text.isDigits ds → Spells ('+' :: ds) (Text.digitsValue ds)
  | minus {ds : List Char} : Text.isDigits ds → Spells ('-' :: ds) (-Text.digitsValue ds)

/-- Digits with a point, that spell a fraction. -/
inductive SpellsFraction : List Char → Rat → Prop
  | point {whole fraction : List Char} :
      Text.isDigits whole → Text.isDigits fraction →
      SpellsFraction (whole ++ '.' :: fraction)
        (mkRat (Text.digitsValue (whole ++ fraction)) (Nat.pow 10 fraction.length))

/-- A checked literal is in bounds, or of allowed characters, by its type. -/
inductive LiteralTyped : RawLiteral → Literal → Prop
  | bool {b : Bool} : LiteralTyped (.bool b) (.bool b)
  | integer {digits : String} {i : BoundedInteger} :
      Spells digits.toList i.value → LiteralTyped (.integer digits) (.integer i)
  | decimal {digits : String} {whole : List Char} {d : BoundedDecimal} :
      digits.toList = whole ++ '.' :: d.fraction → Text.isDigits whole →
      Text.digitsValue whole = d.whole → LiteralTyped (.decimal digits) (.decimal d)
  | string {s : PlainString} : LiteralTyped (.string s.text) (.string s)

variable (catalog : Catalog)

/-- A word of the host language, or what stands before the first point in the host name of some
function. -/
inductive HostReserved (x : String) : Prop
  | word : x ∈ reservedWords → HostReserved x
  | qualifier {name : String} {arity : Nat} {s : Signature} {rest : List Char} :
      catalog.function? name arity = some s → s.host.toList = x.toList ++ '.' :: rest →
      '.' ∉ x.toList → HostReserved x

mutual

inductive ExprTyped (env : Env) : Expr .parsed → Expr .typed → Prop
  | literal {raw : RawLiteral} {l : Literal} {span : Span} :
      LiteralTyped raw l → ExprTyped env (.literal raw span ()) (.literal l span l.ty)
  | group {e : Expr .parsed} {e' : Expr .typed} {span : Span} :
      ExprTyped env e e' → ExprTyped env (.group e span ()) (.group e' span e'.ty)
  | binary {op : Operator} {l r : Expr .parsed} {l' r' : Expr .typed} {t : Ty} {span : Span} :
      ExprTyped env l l' → ExprTyped env r r' → OperatorTyped op l'.ty r'.ty t →
      ExprTyped env (.binary op l r span ()) (.binary op l' r' span t)
  | var {x : Ident} {t : Ty} {span : Span} :
      env.Sees x.name t → ExprTyped env (.var x span ()) (.var x span t)
  | call {x : Ident} {args : List (Expr .parsed)} {args' : List (Expr .typed)} {s : Signature}
      {span : Span} :
      catalog.function? x.name args.length = some s → ArgumentsTyped env args s.params args' →
      ExprTyped env (.call x args () span ()) (.call x args' s.host span s.result)

inductive ArgumentsTyped (env : Env) : List (Expr .parsed) → List Ty → List (Expr .typed) → Prop
  | nil : ArgumentsTyped env [] [] []
  | cons {e : Expr .parsed} {e' : Expr .typed} {t : Ty} {es : List (Expr .parsed)} {ts : List Ty}
      {es' : List (Expr .typed)} :
      ExprTyped env e e' → Assignable e'.ty t → ArgumentsTyped env es ts es' →
      ArgumentsTyped env (e :: es) (t :: ts) (e' :: es')

end

inductive InitialTyped (env : Env) (t : Ty) :
    Option (Expr .parsed) → Option (Expr .typed) → Prop
  | none : InitialTyped env t none none
  | some {e : Expr .parsed} {e' : Expr .typed} :
      ExprTyped catalog env e e' → Assignable e'.ty t → InitialTyped env t (some e) (some e')

mutual

inductive StmtTyped : Env → Stmt .parsed → Stmt .typed → Env → Prop
  | expr {env : Env} {e : Expr .parsed} {e' : Expr .typed} {span : Span} :
      e.isCall → ExprTyped catalog env e e' → StmtTyped env (.expr e span) (.expr e' span) env
  | declaration {env : Env} {x ty : Ident} {t : Ty} {initial : Option (Expr .parsed)}
      {initial' : Option (Expr .typed)} {span : Span} :
      ¬ HostReserved catalog x.name → t.name = ty.name → t ≠ .void →
      InitialTyped catalog env t initial initial' → env.here x.name = none →
      StmtTyped env (.declaration x ty initial span) (.declaration x t initial' span)
        (env.bind x.name t)
  | assignment {env : Env} {x : Ident} {t : Ty} {e : Expr .parsed} {e' : Expr .typed} {span : Span} :
      env.Sees x.name t → ExprTyped catalog env e e' → Assignable e'.ty t →
      StmtTyped env (.assignment x e span) (.assignment x e' span) env
  | branch {env yesEnv noEnv : Env} {c : Expr .parsed} {c' : Expr .typed} {yes no : Block .parsed}
      {yes' no' : Block .typed} {span : Span} :
      ExprTyped catalog env c c' → c'.ty = .boolean → yes ≠ [] →
      BlockTyped env.nested yes yes' yesEnv → BlockTyped env.nested no no' noEnv →
      StmtTyped env (.branch c yes no span) (.branch c' yes' no' span) env
  | loop {env bodyEnv : Env} {c : Expr .parsed} {c' : Expr .typed} {body : Block .parsed}
      {body' : Block .typed} {span : Span} :
      ExprTyped catalog env c c' → c'.ty = .boolean → BlockTyped env.nested body body' bodyEnv →
      StmtTyped env (.loop c body span) (.loop c' body' span) env

inductive BlockTyped : Env → Block .parsed → Block .typed → Env → Prop
  | nil {env : Env} : BlockTyped env [] [] env
  | cons {env mid env' : Env} {s : Stmt .parsed} {s' : Stmt .typed} {ss : Block .parsed}
      {ss' : Block .typed} :
      StmtTyped env s s' mid → BlockTyped mid ss ss' env' → BlockTyped env (s :: ss) (s' :: ss') env'

end

/-- A program is a block that is not empty. -/
def ProgramTyped (env : Env) (b : Block .parsed) (b' : Block .typed) (env' : Env) : Prop :=
  b ≠ [] ∧ BlockTyped catalog env b b' env'

end Rules

end LetLang
