import LetLang.Proofs.Java.Commands
import LetLang.Proofs.Literal.Occurrences

/-! The lines of a class in fragments. A fragment is a literal of the program or something written
around literals. Put together the fragments are the generated lines, and their literals are those of
the program, from left to right. -/

namespace LetLang.Java

open Text (Line)

inductive Fragment where
  | plain (text : String)
  | literal (value : Located Literal)

namespace Fragment

def text : Fragment → List Char
  | plain text => text.toList
  | literal l => (Java.literal l.value).toList

def literal? : Fragment → Option (Located Literal)
  | plain _ => none
  | literal l => some l

end Fragment

def written (fs : List Fragment) : String := String.ofList (fs.flatMap Fragment.text)

/-- A line that is not put together yet. -/
structure Row where
  level : Nat
  fragments : List Fragment

namespace Row

def line (r : Row) : Line := ⟨r.level, written r.fragments⟩

def literals (r : Row) : List (Located Literal) := r.fragments.filterMap Fragment.literal?

end Row

open Fragment (plain)

mutual

def fragments : Expr .typed → List Fragment
  | .literal l span _ => [.literal ⟨span, l⟩]
  | .group inner _ _ => plain "(" :: (fragments inner ++ [plain ")"])
  | .binary op lhs rhs _ _ => fragments lhs ++ plain (" " ++ op.spelling ++ " ") :: fragments rhs
  | .var name _ _ => [plain name.name]
  | .call _ args host _ _ => plain (host ++ "(") :: (argumentFragments args ++ [plain ")"])

def argumentFragments : List (Expr .typed) → List Fragment
  | [] => []
  | [e] => fragments e
  | e :: e' :: es => fragments e ++ plain ", " :: argumentFragments (e' :: es)

end

variable (catalog : Catalog)

mutual

def stmtRows (level : Nat) : Stmt .typed → List Row
  | .expr e _ => [⟨level, fragments e ++ [plain ";"]⟩]
  | .declaration name ty none _ =>
    [⟨level, [plain (catalog.hostType ty ++ " " ++ name.name ++ ";")]⟩]
  | .declaration name ty (some e) _ =>
    [⟨level, plain (catalog.hostType ty ++ " " ++ name.name ++ " = ") ::
      (fragments e ++ [plain ";"])⟩]
  | .assignment target e _ =>
    [⟨level, plain (target.name ++ " = ") :: (fragments e ++ [plain ";"])⟩]
  | .branch test yes no _ =>
    ⟨level, plain "if (" :: (fragments test ++ [plain ") \x7b"])⟩ ::
      (blockRows (level + 1) yes ++
        (if no.isEmpty then []
          else ⟨level, [plain "\x7d else \x7b"]⟩ :: blockRows (level + 1) no) ++
        [⟨level, [plain "\x7d"]⟩])
  | .loop test body _ =>
    ⟨level, plain "while (" :: (fragments test ++ [plain ") \x7b"])⟩ ::
      (blockRows (level + 1) body ++ [⟨level, [plain "\x7d"]⟩])

def blockRows (level : Nat) : Block .typed → List Row
  | [] => []
  | s :: ss => stmtRows level s ++ blockRows level ss

end

def rows (className : String) (program : Block .typed) : List Row :=
  [⟨0, [plain ("public final class " ++ className ++ " \x7b")]⟩,
    ⟨0, []⟩,
    ⟨1, [plain "public static void main(String[] args) \x7b"]⟩] ++
  blockRows catalog 2 program ++
  [⟨1, [plain "\x7d"]⟩,
    ⟨0, []⟩,
    ⟨0, [plain "\x7d"]⟩]

/-! The fragments put together. -/

@[simp] theorem written_nil : written [] = "" := rfl

@[simp] theorem written_plain (text : String) (fs : List Fragment) :
    written (plain text :: fs) = text ++ written fs := by
  rw [written, List.flatMap_cons, Fragment.text, String.ofList_append, String.ofList_toList]
  rfl

@[simp] theorem written_append (fs gs : List Fragment) :
    written (fs ++ gs) = written fs ++ written gs := by
  rw [written, List.flatMap_append, String.ofList_append]
  rfl

mutual

theorem written_fragments : (e : Expr .typed) → written (fragments e) = expr e
  | .literal l span _ => by
    rw [fragments, expr, written, List.flatMap_singleton, Fragment.text, String.ofList_toList]
  | .group inner _ _ => by
    simp [fragments, expr, written_fragments inner, String.append_assoc]
  | .binary _ lhs rhs _ _ => by
    simp [fragments, expr, written_fragments lhs, written_fragments rhs, String.append_assoc]
  | .var _ _ _ => by simp [fragments, expr]
  | .call _ args _ _ _ => by
    simp [fragments, expr, written_argumentFragments args, String.append_assoc]

theorem written_argumentFragments : (es : List (Expr .typed)) →
    written (argumentFragments es) = ", ".intercalate (exprs es)
  | [] => rfl
  | [e] => by simp [argumentFragments, exprs, written_fragments e]
  | e :: e' :: es => by
    have hrest := written_argumentFragments (e' :: es)
    simp only [exprs] at hrest
    simp [argumentFragments, exprs, written_fragments e, hrest, String.append_assoc]

end

variable {catalog}

mutual

theorem line_stmtRows (level : Nat) : (s : Stmt .typed) →
    (stmtRows catalog level s).map Row.line = stmt catalog level s
  | .expr e _ => by simp [stmtRows, stmt, Row.line, written_fragments]
  | .declaration _ _ none _ => by simp [stmtRows, stmt, Row.line]
  | .declaration _ _ (some e) _ => by
    simp [stmtRows, stmt, Row.line, written_fragments, String.append_assoc]
  | .assignment _ e _ => by
    simp [stmtRows, stmt, Row.line, written_fragments, String.append_assoc]
  | .branch test yes no _ => by
    have hyes := line_blockRows (level + 1) yes
    have hno := line_blockRows (level + 1) no
    cases no <;>
      simp [stmtRows, stmt, Row.line, written_fragments, String.append_assoc, hyes, hno]
  | .loop test body _ => by
    have hbody := line_blockRows (level + 1) body
    simp [stmtRows, stmt, Row.line, written_fragments, String.append_assoc, hbody]

theorem line_blockRows (level : Nat) : (ss : Block .typed) →
    (blockRows catalog level ss).map Row.line = block catalog level ss
  | [] => rfl
  | s :: ss => by
    rw [blockRows, block, List.map_append, line_stmtRows level s, line_blockRows level ss]

end

theorem line_rows (className : String) (program : Block .typed) :
    (rows catalog className program).map Row.line = lines catalog className program := by
  simp [rows, lines, Row.line, Line.blank, line_blockRows, String.append_assoc]

/-! The literals of the fragments. -/

@[simp] theorem filterMap_plain (text : String) (fs : List Fragment) :
    (plain text :: fs).filterMap Fragment.literal? = fs.filterMap Fragment.literal? := rfl

mutual

theorem literals_fragments : (e : Expr .typed) →
    (fragments e).filterMap Fragment.literal? = e.literals
  | .literal _ _ _ => rfl
  | .group inner _ _ => by simp [fragments, Expr.literals, literals_fragments inner]
  | .binary _ lhs rhs _ _ => by
    simp [fragments, Expr.literals, literals_fragments lhs, literals_fragments rhs]
  | .var _ _ _ => rfl
  | .call _ args _ _ _ => by simp [fragments, Expr.literals, literals_argumentFragments args]

theorem literals_argumentFragments : (es : List (Expr .typed)) →
    (argumentFragments es).filterMap Fragment.literal? = Expr.literalsAll es
  | [] => rfl
  | [e] => by simp [argumentFragments, Expr.literalsAll, literals_fragments e]
  | e :: e' :: es => by
    have hrest := literals_argumentFragments (e' :: es)
    simp [argumentFragments, Expr.literalsAll, literals_fragments e, hrest]

end

mutual

theorem literals_stmtRows (level : Nat) : (s : Stmt .typed) →
    (stmtRows catalog level s).flatMap Row.literals = s.literals
  | .expr e _ => by simp [stmtRows, Row.literals, Stmt.literals, literals_fragments]
  | .declaration _ _ none _ => rfl
  | .declaration _ _ (some e) _ => by
    simp [stmtRows, Row.literals, Stmt.literals, literals_fragments]
  | .assignment _ e _ => by simp [stmtRows, Row.literals, Stmt.literals, literals_fragments]
  | .branch test yes no _ => by
    have hyes := literals_blockRows (level + 1) yes
    have hno := literals_blockRows (level + 1) no
    cases no with
    | nil =>
      simp [stmtRows, Row.literals, Stmt.literals, Stmt.literalsAll, literals_fragments, hyes]
    | cons s no => simp [stmtRows, Row.literals, Stmt.literals, literals_fragments, hyes, hno]
  | .loop test body _ => by
    have hbody := literals_blockRows (level + 1) body
    simp [stmtRows, Row.literals, Stmt.literals, literals_fragments, hbody]

theorem literals_blockRows (level : Nat) : (ss : Block .typed) →
    (blockRows catalog level ss).flatMap Row.literals = Stmt.literalsAll ss
  | [] => rfl
  | s :: ss => by
    rw [blockRows, List.flatMap_append, literals_stmtRows level s, literals_blockRows level ss,
      Stmt.literalsAll]

end

theorem literals_rows (className : String) (program : Block .typed) :
    (rows catalog className program).flatMap Row.literals = Stmt.literalsAll program := by
  simp [rows, Row.literals, literals_blockRows]

end LetLang.Java
