import LetLang.Proofs.Token.Words
import LetLang.Tree

/-!
The grammar, over words, and the trees that its derivations stand for. An expression has a layer: 0
for the equalities, 1 for sums, 2 for products and 3 for what needs no operator; a layer chains the
next one, to the left.
-/

namespace LetLang

/-! Trees as they are read, without the places where they stand. -/

namespace Bare

inductive Expr where
  | literal (value : RawLiteral)
  | group (inner : Expr)
  | binary (op : Operator) (lhs rhs : Expr)
  | var (name : String)
  | call (name : String) (args : List Expr)

inductive Stmt where
  | expr (value : Expr)
  | declaration (name ty : String) (initial : Option Expr)
  | assignment (target : String) (value : Expr)
  | branch (condition : Expr) (yes no : List Stmt)
  | loop (condition : Expr) (body : List Stmt)

end Bare

namespace Expr

mutual

def bare : Expr .parsed → Bare.Expr
  | literal value _ _ => .literal value
  | group inner _ _ => .group inner.bare
  | binary op lhs rhs _ _ => .binary op lhs.bare rhs.bare
  | var name _ _ => .var name.name
  | call name args _ _ _ => .call name.name (bareAll args)

def bareAll : List (Expr .parsed) → List Bare.Expr
  | [] => []
  | e :: es => e.bare :: bareAll es

end

end Expr

namespace Stmt

mutual

def bare : Stmt .parsed → Bare.Stmt
  | expr value _ => .expr value.bare
  | declaration name ty initial _ => .declaration name.name ty.name (initial.map Expr.bare)
  | assignment target value _ => .assignment target.name value.bare
  | branch condition yes no _ => .branch condition.bare (bareAll yes) (bareAll no)
  | loop condition body _ => .loop condition.bare (bareAll body)

def bareAll : List (Stmt .parsed) → List Bare.Stmt
  | [] => []
  | s :: ss => s.bare :: bareAll ss

end

end Stmt

/-- The layer that an operator chains. -/
def Operator.layer : Operator → Nat
  | .eq | .notEq => 0
  | .add | .sub => 1
  | .mul | .div => 2

theorem Operator.layer_le (op : Operator) : op.layer ≤ 2 := by
  cases op <;> decide

namespace Grammar

open Word (keyword name integer decimal string mark)

mutual

inductive Layer : Nat → List Word → Bare.Expr → Prop
  | chain {op : Operator} {n : Nat} {ls rs : List Word} {l r : Bare.Expr} :
      op.layer = n → Layer n ls l → Layer (n + 1) rs r →
      Layer n (ls ++ mark op.mark :: rs) (.binary op l r)
  | tighter {n : Nat} {ws : List Word} {e : Bare.Expr} : Layer (n + 1) ws e → Layer n ws e
  | primary {ws : List Word} {e : Bare.Expr} : Primary ws e → Layer 3 ws e

inductive Primary : List Word → Bare.Expr → Prop
  | true : Primary [keyword .TRUE] (.literal (.bool true))
  | false : Primary [keyword .FALSE] (.literal (.bool false))
  | integer {digits : String} : Primary [integer digits] (.literal (.integer digits))
  | decimal {digits : String} : Primary [decimal digits] (.literal (.decimal digits))
  | string {contents : String} : Primary [string contents] (.literal (.string contents))
  | var {x : String} : IsName x → Primary [name x] (.var x)
  | call {x : String} {ws : List Word} {args : List Bare.Expr} :
      IsName x → Arguments ws args →
      Primary (name x :: mark .opening :: (ws ++ [mark .closing])) (.call x args)
  | group {ws : List Word} {e : Bare.Expr} :
      Layer 0 ws e → Primary (mark .opening :: (ws ++ [mark .closing])) (.group e)

inductive Arguments : List Word → List Bare.Expr → Prop
  | none : Arguments [] []
  | some {ws : List Word} {args : List Bare.Expr} : ArgumentList ws args → Arguments ws args

inductive ArgumentList : List Word → List Bare.Expr → Prop
  | last {ws : List Word} {e : Bare.Expr} : Layer 0 ws e → ArgumentList ws [e]
  | more {ws ws' : List Word} {e : Bare.Expr} {es : List Bare.Expr} :
      Layer 0 ws e → ArgumentList ws' es → ArgumentList (ws ++ mark .comma :: ws') (e :: es)

end

inductive Initializer : List Word → Option Bare.Expr → Prop
  | none : Initializer [] none
  | some {ws : List Word} {e : Bare.Expr} :
      Layer 0 ws e → Initializer (mark .assign :: ws) (some e)

mutual

inductive Statement : List Word → Bare.Stmt → Prop
  | expr {ws : List Word} {e : Bare.Expr} :
      Layer 0 ws e → Statement (ws ++ [mark .semicolon]) (.expr e)
  | declaration {x ty : String} {ws : List Word} {initial : Option Bare.Expr} :
      IsName x → IsName ty → Initializer ws initial →
      Statement (keyword .LET :: name x :: mark .colon :: name ty :: (ws ++ [mark .semicolon]))
        (.declaration x ty initial)
  | assignment {x : String} {ws : List Word} {e : Bare.Expr} :
      IsName x → Layer 0 ws e →
      Statement (name x :: mark .assign :: (ws ++ [mark .semicolon])) (.assignment x e)
  | branch {cs ys ns : List Word} {c : Bare.Expr} {yes no : List Bare.Stmt} :
      Layer 0 cs c → Statements ys yes → Otherwise ns no →
      Statement (keyword .IF :: (cs ++ keyword .THEN :: (ys ++ (ns ++ [keyword .END]))))
        (.branch c yes no)
  | loop {cs bs : List Word} {c : Bare.Expr} {body : List Bare.Stmt} :
      Layer 0 cs c → Statements bs body →
      Statement (keyword .WHILE :: (cs ++ keyword .DO :: (bs ++ [keyword .END]))) (.loop c body)

inductive Otherwise : List Word → List Bare.Stmt → Prop
  | none : Otherwise [] []
  | some {ws : List Word} {ss : List Bare.Stmt} :
      Statements ws ss → Otherwise (keyword .ELSE :: ws) ss

inductive Statements : List Word → List Bare.Stmt → Prop
  | nil : Statements [] []
  | cons {ws ws' : List Word} {s : Bare.Stmt} {ss : List Bare.Stmt} :
      Statement ws s → Statements ws' ss → Statements (ws ++ ws') (s :: ss)

end

/-- A program has at least one statement. -/
def Program (ws : List Word) (ss : List Bare.Stmt) : Prop := Statements ws ss ∧ ss ≠ []

theorem Layer.mono {m n : Nat} {ws : List Word} {e : Bare.Expr} (h : Layer n ws e) (hm : m ≤ n) :
    Layer m ws e := by
  induction hm with
  | refl => exact h
  | step _ ih => exact ih h.tighter

end Grammar

end LetLang
