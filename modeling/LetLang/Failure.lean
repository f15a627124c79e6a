/-!
How a stage can end without a result. An `error` is the reported kind. An `abort` is an operation
outside its domain, such as cutting a text inside a character, and carries nothing to report.
-/

namespace LetLang

inductive Failure (ε : Type) where
  | error (cause : ε)
  | abort
  deriving DecidableEq, Repr

abbrev Result (ε α : Type) := Except (Failure ε) α

namespace Failure

def map {ε ε' : Type} (f : ε → ε') : Failure ε → Failure ε'
  | error e => error (f e)
  | abort => abort

end Failure

namespace Result

def ofOption {ε α : Type} : Option α → Result ε α
  | some a => .ok a
  | none => .error .abort

def mapError {ε ε' α : Type} (f : ε → ε') : Result ε α → Result ε' α
  | .ok a => .ok a
  | .error e => .error (e.map f)

end Result

end LetLang
