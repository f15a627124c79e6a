import LetLang.Proofs.Java.Lexicon
import LetLang.Proofs.Tree.Grammar

/-!
The part of the grammar of Java that generated classes are written in. The operators and their
layers are those of the language: the equalities, then sums, then products, each layer a chain of
the next one that groups to the left. A number without a point starts with a zero only if it is
zero, as other numbers that start with one are octal.
-/

namespace LetLang.Java

inductive Constant where
  | bool (value : Bool)
  | int (value : Int)
  | double (whole : Nat) (fraction : List Char)
  | string (value : String)

inductive Term where
  | literal (value : Constant)
  | name (name : String)
  | group (inner : Term)
  | binary (op : Operator) (lhs rhs : Term)
  | call (callee : String) (args : List Term)

inductive Command where
  | declare (type name : String) (initial : Option Term)
  | assign (target : String) (value : Term)
  | run (call : Term)
  | branch (test : Term) (yes : List Command) (no : Option (List Command))
  | loop (test : Term) (body : List Command)

/-- A class whose `main` runs the commands. -/
structure Program where
  className : String
  commands : List Command

abbrev Atom := Text.Word WordKind

def word (x : String) : Atom := ⟨.word, x.toList⟩

def symbol (s : String) : Atom := ⟨.symbol, s.toList⟩

/-- The words that no name can be. -/
def keywords : List String :=
  ["abstract", "assert", "boolean", "break", "byte", "case", "catch", "char", "class", "const",
    "continue", "default", "do", "double", "else", "enum", "extends", "final", "finally", "float",
    "for", "goto", "if", "implements", "import", "instanceof", "int", "interface", "long", "native",
    "new", "package", "private", "protected", "public", "return", "short", "static", "strictfp",
    "super", "switch", "synchronized", "this", "throw", "throws", "transient", "try", "void",
    "volatile", "while", "_", "true", "false", "null"]

def primitives : List String :=
  ["boolean", "byte", "char", "double", "float", "int", "long", "short"]

structure IsName (x : String) : Prop where
  isWord : IsWord .word x.toList
  not_keyword : x ∉ keywords

theorem isName_iff {x : String} : IsName x ↔ IsWord .word x.toList ∧ x ∉ keywords :=
  ⟨fun h => ⟨h.isWord, h.not_keyword⟩, fun h => ⟨h.1, h.2⟩⟩

instance (x : String) : Decidable (IsName x) := decidable_of_iff _ isName_iff.symm

def IsType (x : String) : Prop := x ∈ primitives ∨ IsName x

namespace Grammar

/-- A name, or names with points between them. -/
inductive Dotted : List Atom → String → Prop
  | last {x : String} : IsName x → Dotted [word x] x
  | more {x y : String} {ws : List Atom} :
      IsName x → Dotted ws y → Dotted (word x :: symbol "." :: ws) (x ++ "." ++ y)

inductive Literal : Atom → Constant → Prop
  | true : Literal (word "true") (.bool true)
  | false : Literal (word "false") (.bool false)
  | int {digits : List Char} :
      Text.isDigits digits → (digits.head? = some '0' → digits = ['0']) →
      Text.digitsValue digits < 2147483648 →
      Literal ⟨.number, digits⟩ (.int (Text.digitsValue digits))
  | double {whole fraction : List Char} :
      Text.isDigits whole → Text.isDigits fraction →
      Literal ⟨.number, whole ++ '.' :: fraction⟩ (.double (Text.digitsValue whole) fraction)
  | string {body vs : List Char} :
      StringBody body vs → Literal ⟨.string, '"' :: (body ++ ['"'])⟩ (.string (String.ofList vs))

mutual

inductive Layer : Nat → List Atom → Term → Prop
  | chain {n : Nat} {hs ts : List Atom} {h t : Term} :
      n < 3 → Layer (n + 1) hs h → Tail n h ts t → Layer n (hs ++ ts) t
  | primary {ws : List Atom} {t : Term} : Primary ws t → Layer 3 ws t

/-- How the chain of a layer goes on from what has been read of it. -/
inductive Tail : Nat → Term → List Atom → Term → Prop
  | done {n : Nat} {t : Term} : Tail n t [] t
  | step {op : Operator} {n : Nat} {rs ts : List Atom} {l r t : Term} :
      op.layer = n → Layer (n + 1) rs r → Tail n (.binary op l r) ts t →
      Tail n l (symbol op.spelling :: (rs ++ ts)) t

inductive Primary : List Atom → Term → Prop
  | literal {w : Atom} {c : Constant} : Literal w c → Primary [w] (.literal c)
  | name {x : String} : IsName x → Primary [word x] (.name x)
  | call {hs ws : List Atom} {host : String} {args : List Term} :
      Dotted hs host → Arguments ws args →
      Primary (hs ++ symbol "(" :: (ws ++ [symbol ")"])) (.call host args)
  | group {ws : List Atom} {t : Term} :
      Layer 0 ws t → Primary (symbol "(" :: (ws ++ [symbol ")"])) (.group t)

inductive Arguments : List Atom → List Term → Prop
  | none : Arguments [] []
  | some {ws : List Atom} {args : List Term} : ArgumentList ws args → Arguments ws args

inductive ArgumentList : List Atom → List Term → Prop
  | last {ws : List Atom} {t : Term} : Layer 0 ws t → ArgumentList ws [t]
  | more {ws ws' : List Atom} {t : Term} {ts : List Term} :
      Layer 0 ws t → ArgumentList ws' ts → ArgumentList (ws ++ symbol "," :: ws') (t :: ts)

end

inductive Initializer : List Atom → Option Term → Prop
  | none : Initializer [] none
  | some {ws : List Atom} {t : Term} : Layer 0 ws t → Initializer (symbol "=" :: ws) (some t)

mutual

inductive Statement : List Atom → Command → Prop
  | declare {type x : String} {ws : List Atom} {initial : Option Term} :
      IsType type → IsName x → Initializer ws initial →
      Statement (word type :: word x :: (ws ++ [symbol ";"])) (.declare type x initial)
  | assign {x : String} {ws : List Atom} {t : Term} :
      IsName x → Layer 0 ws t →
      Statement (word x :: symbol "=" :: (ws ++ [symbol ";"])) (.assign x t)
  | run {ws : List Atom} {host : String} {args : List Term} :
      Primary ws (.call host args) → Statement (ws ++ [symbol ";"]) (.run (.call host args))
  | branch {cs ys ns : List Atom} {c : Term} {yes : List Command} {no : Option (List Command)} :
      Layer 0 cs c → Statements ys yes → Otherwise ns no →
      Statement (word "if" :: symbol "(" :: (cs ++ symbol ")" :: symbol "\x7b" ::
        (ys ++ symbol "\x7d" :: ns))) (.branch c yes no)
  | loop {cs bs : List Atom} {c : Term} {body : List Command} :
      Layer 0 cs c → Statements bs body →
      Statement (word "while" :: symbol "(" :: (cs ++ symbol ")" :: symbol "\x7b" ::
        (bs ++ [symbol "\x7d"]))) (.loop c body)

inductive Otherwise : List Atom → Option (List Command) → Prop
  | none : Otherwise [] none
  | some {ws : List Atom} {ss : List Command} :
      Statements ws ss →
      Otherwise (word "else" :: symbol "\x7b" :: (ws ++ [symbol "\x7d"])) (some ss)

inductive Statements : List Atom → List Command → Prop
  | nil : Statements [] []
  | cons {ws ws' : List Atom} {s : Command} {ss : List Command} :
      Statement ws s → Statements ws' ss → Statements (ws ++ ws') (s :: ss)

end

/-- What stands before the commands of a class. -/
def opening (className : String) : List Atom :=
  [word "public", word "final", word "class", word className, symbol "\x7b",
    word "public", word "static", word "void", word "main",
    symbol "(", word "String", symbol "[", symbol "]", word "args", symbol ")", symbol "\x7b"]

inductive CompilationUnit : List Atom → Program → Prop
  | mk {x : String} {ws : List Atom} {ss : List Command} :
      IsName x → Statements ws ss →
      CompilationUnit (opening x ++ (ws ++ [symbol "\x7d", symbol "\x7d"])) ⟨x, ss⟩

end Grammar

/-- The words of the text are those of the program. -/
def ReadsAs (text : String) (program : Program) : Prop :=
  ∃ ws, lexicon.Says text.toList ws ∧ Grammar.CompilationUnit ws program

end LetLang.Java
