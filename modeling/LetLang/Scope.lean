import LetLang.Table
import LetLang.Ty

/-!
Nested blocks of bindings. A name stands for its innermost binding; a new one in the same block
replaces it, and one in an inner block hides it until that block is left.
-/

namespace LetLang

structure Scope where
  current : Table String Ty
  outer : List (Table String Ty)
  deriving Repr

namespace Scope

def root : Scope := ⟨.empty, []⟩

def enter (s : Scope) : Scope := ⟨.empty, s.current :: s.outer⟩

/-- Drops the bindings of the innermost block; the root is never left. -/
def leave (s : Scope) : Scope :=
  match s.outer with
  | [] => s
  | t :: ts => ⟨t, ts⟩

def depth (s : Scope) : Nat := s.outer.length

def define (s : Scope) (name : String) (t : Ty) : Scope :=
  { s with current := s.current.insert name t }

/-- The type bound in the innermost block. -/
def local? (s : Scope) (name : String) : Option Ty := s.current.get? name

def lookup? (s : Scope) (name : String) : Option Ty :=
  (s.current :: s.outer).findSome? (·.get? name)

theorem lookup?_eq (s : Scope) (name : String) :
    s.lookup? name = (s.local? name).or (s.outer.findSome? (·.get? name)) := by
  simp only [lookup?, local?, List.findSome?_cons]
  cases s.current.get? name <;> rfl

@[simp] theorem leave_enter (s : Scope) : s.enter.leave = s := rfl

@[simp] theorem lookup?_enter (s : Scope) (name : String) : s.enter.lookup? name = s.lookup? name :=
  rfl

theorem lookup?_define (s : Scope) (name name' : String) (t : Ty) :
    (s.define name t).lookup? name' = if name' = name then some t else s.lookup? name' := by
  rw [lookup?_eq, lookup?_eq, local?, define, Table.get?_insert]
  split <;> rfl

end Scope

end LetLang
