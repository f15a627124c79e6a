import LetLang.Compiler

/-!
Sources compiled one after the other in a common scope. What a source binds at its top level is
there for the next one, also if the source turns out to be wrong further on.
-/

namespace LetLang

structure Session where
  buffer : List Token
  catalog : Catalog
  options : Java.Options
  scope : Scope

namespace Session

def start (catalog : Catalog) (options : Java.Options) : Session := ⟨[], catalog, options, .root⟩

/-- Cuts a source into tokens and keeps them. -/
def lex (s : Session) (source : String) : Lexing × Session :=
  let lexing := Lexer.lexInto s.buffer source
  (lexing, { s with buffer := lexing.tokens })

/-- Reads the tokens that are kept, whatever source they come from. -/
def parse (s : Session) (source : String) : Result (Located ParseError) (Block .parsed) :=
  LetLang.parse source s.buffer

/-- Reads a source through the buffer, which is emptied first. -/
def parseProgram (s : Session) (source : String) :
    Result (Located ParseError) (Block .parsed) × Session :=
  (LetLang.parseProgram source, { s with buffer := (Lexer.lex source).tokens })

def typed (s : Session) (source : String) : Result CompileError (Block .typed) × Session :=
  let (outcome, scope) := Compiler.typedIn s.catalog s.scope source
  (outcome, { s with scope := scope })

def generate (s : Session) (source : String) : Result CompileError String × Session :=
  let (outcome, s) := s.typed source
  (do
    let program ← outcome
    .ofOption (Java.generate? s.catalog s.options program), s)

/-- Compiles a source on its own, in a scope of its own. -/
def compile (s : Session) (source : String) : Result CompileError String :=
  Compiler.compile s.catalog s.options source

end Session

end LetLang
