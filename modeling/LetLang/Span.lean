import LetLang.Text.Slice

/-!
Stretches of a source text, as a byte offset and a length. Offsets fit 64 bits and lengths 32 bits,
so spans cannot always be joined or shifted; what does not fit has no result. A token may claim a
stretch whose end is out of range; this is no failure until the end is needed.
-/

namespace LetLang

structure Span where
  lo : Nat
  len : Nat
  deriving DecidableEq, Repr

namespace Span

/-- The largest number of 64 bits. -/
def maxOffset : Nat := 18446744073709551615

/-- The largest number of 32 bits. -/
def maxLength : Nat := 4294967295

def hi (s : Span) : Nat := s.lo + s.len

/-- Both ends are offsets and the length is in range. -/
def Fits (s : Span) : Prop := s.len ≤ maxLength ∧ s.hi ≤ maxOffset

instance (s : Span) : Decidable s.Fits := inferInstanceAs (Decidable (_ ∧ _))

def ofLength? (lo len : Nat) : Option Span :=
  if (⟨lo, len⟩ : Span).Fits then some ⟨lo, len⟩ else none

def ofBounds? (lo hi : Nat) : Option Span :=
  if lo ≤ hi then ofLength? lo (hi - lo) else none

/-- The span of all that lies between the ends of two spans. -/
def join? (a b : Span) : Option Span := ofBounds? (min a.lo b.lo) (max a.hi b.hi)

/-- Both ends moved by the given distances. -/
def shift? (s : Span) (lo hi : Int) : Option Span :=
  let lo := (s.lo : Int) + lo
  let hi := (s.hi : Int) + hi
  if s.Fits ∧ 0 ≤ lo ∧ 0 ≤ hi then ofBounds? lo.toNat hi.toNat else none

def slice? (s : Span) (source : List Char) : Option (List Char) := Text.slice? source s.lo s.len

def display (s : Span) : String := toString s.lo ++ ".." ++ toString s.hi

def describe (s : Span) : String := "Span(" ++ s.display ++ ", len: " ++ toString s.len ++ ")"

theorem ofBounds?_eq_some_iff {lo hi : Nat} {s : Span} :
    ofBounds? lo hi = some s ↔ s.lo = lo ∧ s.hi = hi ∧ s.Fits := by
  obtain ⟨l, n⟩ := s
  unfold ofBounds? ofLength? Fits Span.hi
  split <;> simp <;> grind

end Span

/-- A value with the stretch of source that it is about. -/
structure Located (α : Type) where
  span : Span
  value : α
  deriving DecidableEq, Repr

def Span.locate {α : Type} (s : Span) (a : α) : Located α := ⟨s, a⟩

def Located.map {α β : Type} (f : α → β) (l : Located α) : Located β := ⟨l.span, f l.value⟩

/-- A message that opens with its span; a span that does not fit cannot be shown. -/
def Located.describe? (l : Located String) : Option String :=
  if l.span.Fits then some (l.span.display ++ ": " ++ l.value) else none

end LetLang
