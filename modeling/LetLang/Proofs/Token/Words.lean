import LetLang.Proofs.Token.Tiling
import LetLang.Token.Lexeme

/-!
The words of a source as the terminals of a grammar. Keywords and names are words of one kind; a
name is an identifier that spells no keyword. What a lexeme spells and the word of its token say the
same.
-/

namespace LetLang

open Text (Piece byteLength byteLength_append)

abbrev Word := Text.Word TokenKind

namespace Word

def keyword (k : Keyword) : Word := ⟨.identifier, k.spelling.toList⟩

def name (x : String) : Word := ⟨.identifier, x.toList⟩

def integer (digits : String) : Word := ⟨.integer, digits.toList⟩

def decimal (digits : String) : Word := ⟨.decimal, digits.toList⟩

def string (contents : String) : Word := ⟨.string, '"' :: contents.toList ++ ['"']⟩

def mark (m : Mark) : Word := ⟨.mark m, m.spelling⟩

end Word

def IsName (x : String) : Prop := ∀ k : Keyword, k.spelling ≠ x

theorem ofText?_eq_none_iff {x : String} : Keyword.ofText? x = none ↔ IsName x := by
  simp only [Keyword.ofText?, List.find?_eq_none, beq_iff_eq]
  exact ⟨fun h k => h k (by cases k <;> decide), fun h k _ => h k⟩

instance (x : String) : Decidable (IsName x) := decidable_of_iff _ ofText?_eq_none_iff

/-- A stretch without its first and its last byte. -/
theorem Span.shift?_inner {lo n : Nat} (h : (⟨lo, n + 2⟩ : Span).Fits) :
    Span.shift? ⟨lo, n + 2⟩ 1 (-1) = some ⟨lo + 1, n⟩ := by
  have hhi : Span.hi ⟨lo, n + 2⟩ = lo + n + 2 := rfl
  have hto : ((lo : Int) + 1).toNat = lo + 1 ∧
      (((lo + n + 2 : Nat) : Int) + -1).toNat = lo + 1 + n := by omega
  have hfits : (⟨lo + 1, n⟩ : Span).Fits := by
    simp only [Span.Fits, hhi] at h
    simp only [Span.Fits, Span.hi]
    omega
  unfold Span.shift?
  simp only [hhi]
  rw [if_pos ⟨h, by omega, by omega⟩, hto.1, hto.2, Span.ofBounds?_add, if_pos hfits]

namespace Spelling

/-- What is spelled, as a word again. -/
def word : Spelling → Word
  | keyword k => .keyword k
  | name x => .name x
  | integer digits => .integer digits
  | decimal digits => .decimal digits
  | string contents => .string contents
  | mark m => .mark m
  | unreadable k => ⟨k, []⟩

/-- A name is no keyword, and nothing is unreadable. -/
def Proper : Spelling → Prop
  | name x => IsName x
  | unreadable _ => False
  | _ => True

theorem word_injective {s s' : Spelling} (hs : s.Proper) (hs' : s'.Proper)
    (h : s.word = s'.word) : s = s' := by
  cases s <;> cases s' <;>
    simp only [word, Word.keyword, Word.name, Word.integer, Word.decimal, Word.string, Word.mark,
      Text.Word.mk.injEq, reduceCtorEq, false_and, true_and, String.toList_inj, TokenKind.mark.injEq,
      List.cons_append, List.cons.injEq, List.append_cancel_right_eq] at h
  case keyword.keyword k k' =>
    have := Keyword.ofText?_spelling k
    rw [h, Keyword.ofText?_spelling] at this
    rw [Option.some.inj this]
  case keyword.name k x => exact absurd h (hs' k)
  case name.keyword x k => exact absurd h.symm (hs k)
  case unreadable.keyword => exact hs.elim
  all_goals first | exact hs.elim | exact hs'.elim | simp_all

theorem proper_ofIdentifier (x : String) : (ofIdentifier x).Proper := by
  unfold ofIdentifier
  split
  · trivial
  · next h => exact ofText?_eq_none_iff.1 h

theorem word_ofIdentifier (x : String) : (ofIdentifier x).word = .name x := by
  unfold ofIdentifier
  split
  · next h => rw [word, Word.keyword, Keyword.spelling_of_ofText? h]; rfl
  · rfl

end Spelling

/-- A lexeme that can be read and ends within the given length. -/
structure Lexeme.Sound (limit : Nat) (t : Lexeme) : Prop where
  proper : t.spelling.Proper
  hi_le : t.span.hi ≤ limit

/-- The words that lexemes say. -/
def wordsOf (ts : List Lexeme) : List Word := ts.map (·.spelling.word)

@[simp] theorem wordsOf_nil : wordsOf [] = [] := rfl

@[simp] theorem wordsOf_cons (t : Lexeme) (ts : List Lexeme) :
    wordsOf (t :: ts) = t.spelling.word :: wordsOf ts := rfl

@[simp] theorem wordsOf_append (ts us : List Lexeme) :
    wordsOf (ts ++ us) = wordsOf ts ++ wordsOf us := List.map_append

/-- The lexemes begin with sound ones that say these words; then comes the rest. -/
inductive Begins (limit : Nat) : List Lexeme → List Word → List Lexeme → Prop
  | nil {ts : List Lexeme} : Begins limit ts [] ts
  | cons {t : Lexeme} {ts rest : List Lexeme} {ws : List Word} :
      t.Sound limit → Begins limit ts ws rest → Begins limit (t :: ts) (t.spelling.word :: ws) rest

namespace Begins

variable {limit : Nat} {ts mid rest : List Lexeme} {ws ws' : List Word}

theorem append (h : Begins limit ts ws mid) (h' : Begins limit mid ws' rest) :
    Begins limit ts (ws ++ ws') rest := by
  induction h with
  | nil => exact h'
  | cons ht _ ih => exact .cons ht (ih h')

theorem nil_iff : Begins limit ts [] rest ↔ ts = rest := by
  refine ⟨?_, ?_⟩
  · rintro ⟨⟩
    rfl
  · rintro rfl
    exact .nil

/-- The lexeme of a word is known, but for its place. -/
theorem cons_iff {s : Spelling} (hs : s.Proper) :
    Begins limit ts (s.word :: ws) rest ↔
      ∃ span us, ts = ⟨s, span⟩ :: us ∧ span.hi ≤ limit ∧ Begins limit us ws rest := by
  refine ⟨?_, ?_⟩
  · generalize hw : s.word = w
    rintro (_ | ⟨ht, h⟩)
    obtain rfl := Spelling.word_injective hs ht.proper hw
    exact ⟨_, _, rfl, ht.hi_le, h⟩
  · rintro ⟨span, us, rfl, hspan, h⟩
    exact .cons ⟨hs, hspan⟩ h

theorem append_iff : Begins limit ts (ws ++ ws') rest ↔
    ∃ mid, Begins limit ts ws mid ∧ Begins limit mid ws' rest := by
  refine ⟨fun h => ?_, fun ⟨mid, h, h'⟩ => h.append h'⟩
  induction ws generalizing ts with
  | nil => exact ⟨ts, .nil, h⟩
  | cons w ws ih =>
    obtain _ | ⟨ht, h⟩ := h
    obtain ⟨mid, h, h'⟩ := ih h
    exact ⟨mid, .cons ht h, h'⟩

theorem of_forall (h : ∀ t ∈ ts, t.Sound limit) : Begins limit ts (wordsOf ts) [] := by
  induction ts with
  | nil => exact .nil
  | cons t ts ih =>
    obtain ⟨ht, hts⟩ := List.forall_mem_cons.1 h
    exact .cons ht (ih hts)

theorem words_eq (h : Begins limit ts ws []) : ws = wordsOf ts := by
  generalize hrest : ([] : List Lexeme) = rest at h
  induction h with
  | nil => simp [← hrest]
  | cons _ _ ih => rw [wordsOf_cons, ← ih hrest]

end Begins

namespace Token

/-- The kind and the text of a token. -/
def word? (source : List Char) (t : Token) : Option Word :=
  (t.span.slice? source).map (⟨t.kind, ·⟩)

variable {source before text after : List Char} {k : TokenKind}

theorem slice?_of_placed (hs : source = before ++ (text ++ after)) :
    Span.slice? ⟨byteLength before, byteLength text⟩ source = some text :=
  Text.slice?_eq_some_iff.2 ⟨before, after, by simp [hs], rfl, rfl⟩

theorem contents?_of_placed {inner : List Char}
    (hfits : (⟨byteLength before, byteLength ('"' :: inner ++ ['"'])⟩ : Span).Fits)
    (hs : source = before ++ ('"' :: inner ++ ['"'] ++ after)) :
    Token.contents? source ⟨.string, ⟨byteLength before, byteLength ('"' :: inner ++ ['"'])⟩⟩ =
      some (String.ofList inner) := by
  have hn : byteLength ('"' :: inner ++ ['"']) = byteLength inner + 2 := by
    rw [byteLength_append, Text.byteLength_cons, Nat.add_comm '"'.utf8Size]
    rfl
  have hshift : Span.shift? ⟨byteLength before, byteLength ('"' :: inner ++ ['"'])⟩ 1 (-1) =
      some ⟨byteLength (before ++ ['"']), byteLength inner⟩ := by
    rw [hn] at hfits ⊢
    rw [Span.shift?_inner hfits, byteLength_append]
    rfl
  have hs' : source = (before ++ ['"']) ++ (inner ++ '"' :: after) := by simp [hs]
  have hslice := slice?_of_placed hs'
  simp only [Token.contents?, hshift, Option.bind_eq_bind, Option.bind_some, hslice,
    Option.pure_def]

/-- The lexeme of a word that stands in the source says that word. -/
theorem spelling_of_placed (hfits : (⟨byteLength before, byteLength text⟩ : Span).Fits)
    (hs : source = before ++ (text ++ after)) (hw : Lexer.IsWord k text) :
    (Token.spelling source ⟨k, ⟨byteLength before, byteLength text⟩⟩).Proper ∧
      (Token.spelling source ⟨k, ⟨byteLength before, byteLength text⟩⟩).word = ⟨k, text⟩ := by
  have htext := slice?_of_placed hs
  cases hw with
  | identifier =>
    simp only [Token.spelling, Token.text?, htext, Option.map_some]
    exact ⟨Spelling.proper_ofIdentifier _, by simp [Spelling.word_ofIdentifier, Word.name]⟩
  | string hi =>
    simp only [Token.spelling, contents?_of_placed hfits hs]
    exact ⟨trivial, by simp [Spelling.word, Word.string]⟩
  | mark m => exact ⟨trivial, rfl⟩
  | _ =>
    simp only [Token.spelling, Token.text?, htext, Option.map_some]
    exact ⟨trivial, by simp [Spelling.word, Word.integer, Word.decimal]⟩

end Token

end LetLang
