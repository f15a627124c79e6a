import LetLang.Compiler
import LetLang.Tree.Outline

/-!
The command `plcc`: what its arguments ask for, and what it prints for a source that has been read.
Each flag is given at most once, its value behind `=` or as the next argument; the one argument that
is no flag names the source file. After `--` no argument is a flag.
-/

namespace LetLang

namespace CommandLine

inductive Emit where
  | tokens | tree | typedTree | java
  deriving DecidableEq, Repr

def Emit.ofName? : String → Option Emit
  | "tokens" => some tokens
  | "ast" => some tree
  | "typed" => some typedTree
  | "java" => some java
  | _ => none

/-- The values given so far. -/
structure Given where
  file : Option String
  emit : Option Emit
  className : Option String
  indent : Option Nat
  deriving DecidableEq, Repr

def Given.nothing : Given := ⟨none, none, none, none⟩

structure Request where
  /-- Standard input is read if there is no file. -/
  file : Option String
  emit : Emit
  options : Java.Options
  deriving DecidableEq, Repr

inductive Command where
  | version
  | run (r : Request)
  deriving DecidableEq, Repr

def Given.request (g : Given) : Request where
  file := g.file
  emit := g.emit.getD .java
  options :=
    ⟨g.className.getD Java.Options.default.className, g.indent.getD Java.Options.default.indent⟩

/-- A number of at most 64 bits, with or without a plus sign. -/
def number? (text : String) : Option Nat :=
  let digits :=
    match text.toList with
    | '+' :: digits => digits
    | digits => digits
  if Text.isDigits digits && Text.digitsValue digits ≤ Span.maxOffset then
    some (Text.digitsValue digits)
  else none

/-- A value that has not been given before. -/
def once {α : Type} (before now : Option α) : Option (Option α) :=
  match before, now with
  | none, some a => some (some a)
  | _, _ => none

inductive Flag where
  | emit | className | indent
  deriving DecidableEq, Repr

def Flag.ofName? : String → Option Flag
  | "emit" => some emit
  | "class-name" => some className
  | "indent" => some indent
  | _ => none

def Given.setFlag? (g : Given) (flag : Flag) (value : String) : Option Given :=
  match flag with
  | .emit => (once g.emit (Emit.ofName? value)).map ({ g with emit := · })
  | .className => (once g.className (some value)).map ({ g with className := · })
  | .indent => (once g.indent (number? value)).map ({ g with indent := · })

/-- A file name is not empty. -/
def Given.setFile? (g : Given) (name : String) : Option Given :=
  if name.isEmpty then none else (once g.file (some name)).map ({ g with file := · })

/-- How an argument is read where flags are allowed. -/
inductive Argument where
  | endOfFlags
  | version
  /-- A flag that takes the next argument as its value. -/
  | bareFlag (flag : Flag)
  | flagWithValue (flag : Flag) (value : String)
  | unknownFlag
  /-- An argument that is no flag. A lone minus is one too. -/
  | plain (text : String)

/-- A flag of two minus signs, up to the `=` if there is one, and what comes after it. -/
def Argument.ofLong (name : String) (value : Option String) : Argument :=
  match name, Flag.ofName? name, value with
  | "version", _, none => .version
  | _, some flag, none => .bareFlag flag
  | _, some flag, some value => .flagWithValue flag value
  | _, none, _ => .unknownFlag

def Argument.ofText (text : String) : Argument :=
  match text.toList with
  | ['-', '-'] => .endOfFlags
  | '-' :: '-' :: body =>
    let name := String.ofList (body.takeWhile (· ≠ '='))
    match body.dropWhile (· ≠ '=') with
    | [] => .ofLong name none
    | _ :: value => .ofLong name (some (String.ofList value))
  | '-' :: 'V' :: _ => .version
  | '-' :: _ :: _ => .unknownFlag
  | _ => .plain text

def plainArguments? (g : Given) : List String → Option Given
  | [] => some g
  | name :: rest => (g.setFile? name).bind (plainArguments? · rest)

def arguments? (g : Given) : List String → Option Command
  | [] => some (.run g.request)
  | arg :: rest =>
    match Argument.ofText arg with
    | .endOfFlags => (plainArguments? g rest).map fun g => .run g.request
    | .version => some .version
    | .bareFlag flag =>
      match rest with
      | [] => none
      | value :: rest =>
        match Argument.ofText value with
        | .plain value => (g.setFlag? flag value).bind (arguments? · rest)
        | _ => none
    | .flagWithValue flag value => (g.setFlag? flag value).bind (arguments? · rest)
    | .unknownFlag => none
    | .plain name => (g.setFile? name).bind (arguments? · rest)

/-- What the arguments ask for, if they are in order. -/
def command? (args : List String) : Option Command := arguments? .nothing args

/-- What the command leaves behind: its exit code and its two outputs. -/
structure Outcome where
  code : Nat
  output : String
  errors : String
  deriving DecidableEq, Repr

namespace Outcome

def badArguments : Outcome := ⟨2, "", "error: invalid arguments\n"⟩

def version : Outcome := ⟨0, "plcc 0.0.1\n", ""⟩

def aborted : Outcome := ⟨101, "", ""⟩

def unreadable (reason : String) : Outcome := ⟨1, "", "failed to read input: " ++ reason ++ "\n"⟩

end Outcome

/-- What is printed for a source. -/
def result (r : Request) (source : String) : Result CompileError String :=
  match r.emit with
  | .tokens => do
    let tokens ← Compiler.tokens source
    return String.join (tokens.map fun t => t.describe ++ "\n")
  | .tree => do
    let program ← Compiler.tree source
    .ofOption program.outline?
  | .typedTree => do
    let program ← Compiler.typedTree .standard source
    .ofOption program.outline?
  | .java => Compiler.compile .standard r.options source

def outcome (r : Request) (source : String) : Outcome :=
  match result r source with
  | .ok text => ⟨0, text, ""⟩
  | .error .abort => .aborted
  | .error (.error e) =>
    match e.render? source with
    | some text => ⟨1, "", text ++ "\n"⟩
    | none => .aborted

def decode (bytes : ByteArray) : Except String String :=
  match String.fromUTF8? bytes with
  | some text => .ok text
  | none => .error "stream did not contain valid UTF-8"

/-- The command for its arguments, where `input` reads a file or standard input, or says why that
cannot be done. -/
def run {m : Type → Type} [Monad m] (args : List String)
    (input : Option String → m (Except String String)) : m Outcome :=
  match command? args with
  | none => return .badArguments
  | some .version => return .version
  | some (.run r) => do
    match ← input r.file with
    | .ok source => return outcome r source
    | .error reason => return .unreadable reason

end CommandLine

end LetLang
