import LetLang.Catalog
import LetLang.Text.Layout
import LetLang.Tree

/-!
Typed programs as Java: one class whose `main` runs the statements in order. Operators are written
between their operands without parentheses of their own, so groups stand exactly where the source
has them. Types are named as the catalog says, and a call as its host function.
-/

namespace LetLang

open Text (Line)

namespace Java

/-- A double quote and a backslash are written with a backslash. -/
def escape (c : Char) : List Char := if c = '"' ∨ c = '\\' then ['\\', c] else [c]

def literal : Literal → String
  | .bool b => toString b
  | .integer i => i.text
  | .decimal d => d.text
  | .string s => String.ofList ('"' :: s.text.toList.flatMap escape ++ ['"'])

mutual

def expr : Expr .typed → String
  | .literal l _ _ => literal l
  | .group inner _ _ => "(" ++ expr inner ++ ")"
  | .binary op lhs rhs _ _ => expr lhs ++ " " ++ op.spelling ++ " " ++ expr rhs
  | .var name _ _ => name.name
  | .call _ args host _ _ => host ++ "(" ++ ", ".intercalate (exprs args) ++ ")"

def exprs : List (Expr .typed) → List String
  | [] => []
  | e :: es => expr e :: exprs es

end

variable (catalog : Catalog)

mutual

def stmt (level : Nat) : Stmt .typed → List Line
  | .expr e _ => [⟨level, expr e ++ ";"⟩]
  | .declaration name ty none _ => [⟨level, catalog.hostType ty ++ " " ++ name.name ++ ";"⟩]
  | .declaration name ty (some e) _ =>
    [⟨level, catalog.hostType ty ++ " " ++ name.name ++ " = " ++ expr e ++ ";"⟩]
  | .assignment target e _ => [⟨level, target.name ++ " = " ++ expr e ++ ";"⟩]
  | .branch test yes no _ =>
    ⟨level, "if (" ++ expr test ++ ") \x7b"⟩ :: (block (level + 1) yes ++
      (if no.isEmpty then [] else ⟨level, "\x7d else \x7b"⟩ :: block (level + 1) no) ++
      [⟨level, "\x7d"⟩])
  | .loop test body _ =>
    ⟨level, "while (" ++ expr test ++ ") \x7b"⟩ :: (block (level + 1) body ++ [⟨level, "\x7d"⟩])

def block (level : Nat) : Block .typed → List Line
  | [] => []
  | s :: ss => stmt level s ++ block level ss

end

structure Options where
  className : String
  /-- Spaces for each level. -/
  indent : Nat
  deriving DecidableEq, Repr

def Options.default : Options := ⟨"Main", 4⟩

def lines (className : String) (program : Block .typed) : List Line :=
  [⟨0, "public final class " ++ className ++ " \x7b"⟩,
    .blank,
    ⟨1, "public static void main(String[] args) \x7b"⟩] ++
  block catalog 2 program ++
  [⟨1, "\x7d"⟩,
    .blank,
    ⟨0, "\x7d"⟩]

/-- Fails if a line would be indented too far. -/
def generate? (options : Options) (program : Block .typed) : Option String :=
  Text.layout? options.indent (lines catalog options.className program)

end Java

end LetLang
