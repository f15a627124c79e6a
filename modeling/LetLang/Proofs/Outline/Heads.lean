import LetLang.Proofs.Outline.Quoting
import LetLang.Tree.Outline

/-!
What stands on one line of an outline. A line starts with a key, which says what kind of node it is
about. The fields of the node follow, and the key says how many they are and where they end. So a
line tells its head, provided that the names and numbers in it are words without spaces.
-/

namespace LetLang

open Text (append_cons_injective digitsValue_numeral isDigits_numeral numeral quoted)

namespace Text

/-- Without spaces and line feeds. -/
structure OneWord (cs : List Char) : Prop where
  space_not_mem : ' ' ∉ cs
  newline_not_mem : '\n' ∉ cs

theorem OneWord.of_forall {p : Char → Bool} {cs : List Char} (h : ∀ c ∈ cs, p c)
    (hspace : p ' ' = false) (hbreak : p '\n' = false) : OneWord cs where
  space_not_mem hc := by
    rw [h _ hc] at hspace
    cases hspace
  newline_not_mem hc := by
    rw [h _ hc] at hbreak
    cases hbreak

theorem oneWord_numeral (n : Nat) : OneWord (numeral n) :=
  .of_forall (fun _ => isDigit_of_mem (isDigits_numeral n)) rfl rfl

theorem numeral_injective {n n' : Nat} (h : numeral n = numeral n') : n = n' := by
  rw [← digitsValue_numeral n, h, digitsValue_numeral]

theorem word_append_injective {xs xs' ys ys' : List Char} (h : ' ' ∉ xs) (h' : ' ' ∉ xs')
    (hhead : ∀ c ∈ ys.head?, c = ' ') (hhead' : ∀ c ∈ ys'.head?, c = ' ')
    (he : xs ++ ys = xs' ++ ys') : xs = xs' ∧ ys = ys' :=
  append_injective (forall_ne h) (forall_ne h') (by simpa using hhead) (by simpa using hhead') he

end Text

/-! Fields of one line. -/

theorem Operator.name_injective {op op' : Operator} (h : op.name = op'.name) : op = op' := by
  cases op <;> cases op' <;> first | rfl | exact absurd h (by decide)

theorem Operator.oneWord_name (op : Operator) : Text.OneWord op.name.toList := by
  cases op <;> exact ⟨by decide, by decide⟩

theorem Ty.name_injective {t t' : Ty} (h : t.name = t'.name) : t = t' := by
  have := ofName?_name t
  rw [h, ofName?_name t'] at this
  exact (Option.some.inj this).symm

theorem Ty.oneWord_name (t : Ty) : Text.OneWord t.name.toList := by
  cases t <;> exact ⟨by decide, by decide⟩

theorem Span.toList_display (s : Span) :
    s.display.toList = numeral s.lo ++ '.' :: '.' :: numeral s.hi := by
  simp [display, numeral]

theorem Span.display_append_injective {s s' : Span} {rest rest' : List Char}
    (hrest : ∀ c ∈ rest.head?, c.isDigit = false) (hrest' : ∀ c ∈ rest'.head?, c.isDigit = false)
    (h : s.display.toList ++ rest = s'.display.toList ++ rest') : s = s' ∧ rest = rest' := by
  have hdigits (n : Nat) : ∀ c ∈ numeral n, c.isDigit = true :=
    fun _ => Text.isDigit_of_mem (isDigits_numeral n)
  simp only [toList_display, List.append_assoc, List.cons_append] at h
  obtain ⟨hlo, h⟩ := append_cons_injective (Text.point_not_mem (isDigits_numeral s.lo))
    (Text.point_not_mem (isDigits_numeral s'.lo)) h
  obtain ⟨hhi, rfl⟩ := Text.append_injective (hdigits s.hi) (hdigits s'.hi) hrest hrest'
    (List.cons.inj h).2
  have hlo : s.lo = s'.lo := Text.numeral_injective hlo
  have hhi : s.lo + s.len = s'.lo + s'.len := Text.numeral_injective hhi
  obtain ⟨lo, len⟩ := s
  obtain ⟨lo', len'⟩ := s'
  simp only at hlo hhi
  subst hlo
  rw [Nat.add_left_cancel hhi]
  exact ⟨rfl, rfl⟩

theorem toString_bool_injective {b b' : Bool} (h : toString b = toString b') : b = b' := by
  cases b <;> cases b' <;> first | rfl | exact absurd h (by decide)

theorem oneWord_toString_bool (b : Bool) : Text.OneWord (toString b).toList := by
  cases b <;> exact ⟨by decide, by decide⟩

namespace Outline

/-! Keys. -/

/-- What an expression can be. -/
inductive LabelKey where
  | bool | integer | decimal | string | group | binary | var | call
  deriving DecidableEq

/-- What a line can be about. -/
inductive Key where
  | node (key : LabelKey)
  | expression | declaration | assignment | branch | yes | no | loop | body
  deriving DecidableEq

/-- The first word of a line. -/
def Key.text : Key → String
  | node .bool => "bool"
  | node .integer => "int"
  | node .decimal => "decimal"
  | node .string => "string"
  | node .group => "group"
  | node .binary => "binary"
  | node .var => "variable"
  | node .call => "call"
  | expression => "expression"
  | declaration => "declaration"
  | assignment => "assignment"
  | branch => "if"
  | yes => "then"
  | no => "else"
  | loop => "while"
  | body => "do"

namespace Key

def all : List Key :=
  [node .bool, node .integer, node .decimal, node .string, node .group, node .binary, node .var,
    node .call, expression, declaration, assignment, branch, yes, no, loop, body]

def ofText? (s : String) : Option Key := all.find? fun k => k.text == s

theorem ofText?_text (k : Key) : ofText? k.text = some k := by
  rcases k with ⟨_ | _⟩ | _ <;> decide

theorem text_injective {k k' : Key} (h : k.text = k'.text) : k = k' := by
  have := ofText?_text k
  rw [h, ofText?_text k'] at this
  exact (Option.some.inj this).symm

theorem oneWord_text (k : Key) : Text.OneWord k.text.toList := by
  rcases k with ⟨_ | _⟩ | _ <;> exact ⟨by decide, by decide⟩

theorem text_ne_nil (k : Key) : k.text.toList ≠ [] := by
  rcases k with ⟨_ | _⟩ | _ <;> decide

end Key

/-! Labels of expressions. -/

/-- An expression without its parts, its place and its type. -/
inductive Label where
  | bool (value : Bool)
  | integer (digits : String)
  | decimal (digits : String)
  | string (contents : String)
  | group
  | binary (op : Operator)
  | var (name : String)
  | call (name : String) (host? : Option String)

namespace Label

def ofRaw : RawLiteral → Label
  | .bool value => bool value
  | .integer digits => integer digits
  | .decimal digits => decimal digits
  | .string contents => string contents

def text : Label → String
  | bool value => "bool " ++ toString value
  | integer digits => "int " ++ digits
  | decimal digits => "decimal " ++ digits
  | string contents => "string " ++ quoted contents
  | group => "group"
  | binary op => "binary " ++ op.name
  | var name => "variable " ++ name
  | call name host? => "call " ++ name ++ host?.elim "" (" -> " ++ ·)

/-- The names and numbers are words. -/
def Plain : Label → Prop
  | integer word | decimal word | var word => Text.OneWord word.toList
  | call name host? => Text.OneWord name.toList ∧ ∀ host ∈ host?, Text.OneWord host.toList
  | _ => True

def key : Label → LabelKey
  | bool _ => .bool
  | integer _ => .integer
  | decimal _ => .decimal
  | string _ => .string
  | group => .group
  | binary _ => .binary
  | var _ => .var
  | call _ _ => .call

/-- What follows the key, if the label is followed by a space and the rest. -/
def after (rest : List Char) : Label → List Char
  | bool value => (toString value).toList ++ ' ' :: rest
  | string contents => (quoted contents).toList ++ ' ' :: rest
  | group => rest
  | binary op => op.name.toList ++ ' ' :: rest
  | integer word | decimal word | var word | call word none => word.toList ++ ' ' :: rest
  | call name (some host) => name.toList ++ ' ' :: '-' :: '>' :: ' ' :: (host.toList ++ ' ' :: rest)

theorem text_append (l : Label) (rest : List Char) :
    l.text.toList ++ ' ' :: rest = (Key.node l.key).text.toList ++ ' ' :: l.after rest := by
  cases l with
  | call name host? => cases host? <;> simp [text, key, after, Key.text]
  | _ => simp [text, key, after, Key.text]

variable {l l' : Label} {rest rest' : List Char}

/-- The parenthesis tells a call without a host function from one with it. -/
theorem after_injective (hl : l.Plain) (hl' : l'.Plain) (hkey : l.key = l'.key)
    (h : l.after ('(' :: rest) = l'.after ('(' :: rest')) : l = l' ∧ rest = rest' := by
  have hword {w w' : String} {ys ys' : List Char} (hw : Text.OneWord w.toList)
      (hw' : Text.OneWord w'.toList) (he : w.toList ++ ' ' :: ys = w'.toList ++ ' ' :: ys') :
      w = w' ∧ ys = ys' := by
    have := append_cons_injective hw.space_not_mem hw'.space_not_mem he
    rwa [String.toList_inj] at this
  cases l <;> cases l' <;> cases hkey
  case bool.bool b b' =>
    obtain ⟨hb, hrest⟩ := hword (oneWord_toString_bool b) (oneWord_toString_bool b') h
    exact ⟨congrArg _ (toString_bool_injective hb), (List.cons.inj hrest).2⟩
  case integer.integer | decimal.decimal | var.var =>
    obtain ⟨rfl, hrest⟩ := hword hl hl' h
    exact ⟨rfl, (List.cons.inj hrest).2⟩
  case string.string =>
    obtain ⟨rfl, hrest⟩ := Text.quoted_append_injective h
    exact ⟨rfl, (List.cons.inj (List.cons.inj hrest).2).2⟩
  case group.group => exact ⟨rfl, (List.cons.inj h).2⟩
  case binary.binary op op' =>
    obtain ⟨hop, hrest⟩ := hword op.oneWord_name op'.oneWord_name h
    exact ⟨congrArg _ (Operator.name_injective hop), (List.cons.inj hrest).2⟩
  case call.call name host? name' host?' =>
    -- behind the name comes an arrow or the parenthesis
    cases host? with
    | none =>
      cases host?' with
      | none =>
        obtain ⟨rfl, hrest⟩ := hword hl.1 hl'.1 h
        exact ⟨rfl, (List.cons.inj hrest).2⟩
      | some host' =>
        obtain ⟨-, hrest⟩ := hword hl.1 hl'.1 h
        exact absurd (List.cons.inj hrest).1 (by decide)
    | some host =>
      cases host?' with
      | none =>
        obtain ⟨-, hrest⟩ := hword hl.1 hl'.1 h
        exact absurd (List.cons.inj hrest).1 (by decide)
      | some host' =>
        obtain ⟨rfl, hrest⟩ := hword hl.1 hl'.1 h
        simp only [List.cons.injEq, true_and] at hrest
        obtain ⟨rfl, hlast⟩ := hword (hl.2 host rfl) (hl'.2 host' rfl) hrest
        exact ⟨rfl, (List.cons.inj hlast).2⟩

theorem newline_not_mem_text (hl : l.Plain) : '\n' ∉ l.text.toList := by
  cases l with
  | bool b => simp [text, (oneWord_toString_bool b).newline_not_mem]
  | string contents => simp [text, Text.newline_not_mem_quoted]
  | group => decide
  | binary op => simp [text, op.oneWord_name.newline_not_mem]
  | call name host? =>
    cases host? with
    | none => simp [text, hl.1.newline_not_mem]
    | some host => simp [text, hl.1.newline_not_mem, (hl.2 host rfl).newline_not_mem]
  | _ => simp [text, Text.OneWord.newline_not_mem hl]

end Label

/-! Heads of lines. -/

/-- What a line says. The parts of a node have lines of their own, and so have the words in front of
the blocks of a statement. -/
inductive Head where
  | node (label : Label) (span : Span) (ty? : Option Ty)
  | expression
  | declaration (name ty : String) (initialized : Bool)
  | assignment (target : String)
  | branch
  | yes
  | no
  | loop
  | body

namespace Head

def showType (ty? : Option Ty) : String := ty?.elim "" fun t => " %: " ++ t.name

def showInitialized (initialized : Bool) : String := if initialized then " (initialized)" else ""

def text : Head → String
  | node label span ty? => label.text ++ " (" ++ span.display ++ showType ty? ++ ")"
  | expression => "expression"
  | declaration name ty initialized =>
    "declaration " ++ name ++ ": " ++ ty ++ showInitialized initialized
  | assignment target => "assignment " ++ target
  | branch => "if"
  | yes => "then"
  | no => "else"
  | loop => "while"
  | body => "do"

def Plain : Head → Prop
  | node label _ _ => label.Plain
  | declaration name ty _ => Text.OneWord name.toList ∧ Text.OneWord ty.toList
  | assignment target => Text.OneWord target.toList
  | _ => True

def key : Head → Key
  | node label _ _ => .node label.key
  | expression => .expression
  | declaration _ _ _ => .declaration
  | assignment _ => .assignment
  | branch => .branch
  | yes => .yes
  | no => .no
  | loop => .loop
  | body => .body

/-- What follows the key. -/
def tail : Head → List Char
  | node label span ty? =>
    ' ' :: label.after ('(' :: (span.display.toList ++ ((showType ty?).toList ++ [')'])))
  | declaration name ty initialized =>
    ' ' :: (name.toList ++ ':' :: ' ' :: (ty.toList ++ (showInitialized initialized).toList))
  | assignment target => ' ' :: target.toList
  | _ => []

theorem toList_text (h : Head) : h.text.toList = h.key.text.toList ++ h.tail := by
  cases h with
  | node label span ty? =>
    have hopen : " (".toList = [' ', '('] := rfl
    have hclose : ")".toList = [')'] := rfl
    simp only [text, key, tail, String.toList_append, hopen, hclose, List.append_assoc,
      List.cons_append, List.nil_append]
    exact label.text_append _
  | _ => simp [text, key, tail, Key.text]

theorem head?_tail (h : Head) : ∀ c ∈ h.tail.head?, c = ' ' := by
  cases h <;> simp [tail]

theorem showType_append_injective {ty? ty?' : Option Ty}
    (h : (showType ty?).toList ++ [')'] = (showType ty?').toList ++ [')']) : ty? = ty?' := by
  have he := List.append_cancel_right h
  cases ty? with
  | none =>
    cases ty?' with
    | none => rfl
    | some t' => simp [showType] at he
  | some t =>
    cases ty?' with
    | none => simp [showType] at he
    | some t' =>
      simp only [showType, Option.elim, String.toList_append, List.append_cancel_left_eq,
        String.toList_inj] at he
      rw [Ty.name_injective he]

theorem isDigit_head?_showType (ty? : Option Ty) :
    ∀ c ∈ ((showType ty?).toList ++ [')']).head?, c.isDigit = false := by
  cases ty? <;> simp [showType]

theorem head?_showInitialized (b : Bool) : ∀ c ∈ (showInitialized b).toList.head?, c = ' ' := by
  cases b <;> simp [showInitialized]

theorem showInitialized_injective {b b' : Bool}
    (h : (showInitialized b).toList = (showInitialized b').toList) : b = b' := by
  cases b <;> cases b' <;> first | rfl | exact absurd h (by decide)

variable {h h' : Head}

theorem tail_injective (hp : h.Plain) (hp' : h'.Plain) (hkey : h.key = h'.key)
    (he : h.tail = h'.tail) : h = h' := by
  cases h <;> cases h'
  case node.node l span ty? l' span' ty?' =>
    obtain ⟨rfl, hplace⟩ := Label.after_injective hp hp' (Key.node.inj hkey) (List.cons.inj he).2
    obtain ⟨rfl, htype⟩ := Span.display_append_injective (isDigit_head?_showType ty?)
      (isDigit_head?_showType ty?') hplace
    rw [showType_append_injective htype]
  case declaration.declaration name ty initialized name' ty' initialized' =>
    have hcut := (List.cons.inj he).2
    rw [List.append_cons, List.append_cons name'.toList] at hcut
    have hspace : ' ' ∉ name.toList ++ [':'] := by simpa using hp.1.space_not_mem
    have hspace' : ' ' ∉ name'.toList ++ [':'] := by simpa using hp'.1.space_not_mem
    obtain ⟨hname, hrest⟩ := append_cons_injective hspace hspace' hcut
    obtain ⟨hty, hinitialized⟩ := Text.word_append_injective hp.2.space_not_mem
      hp'.2.space_not_mem (head?_showInitialized _) (head?_showInitialized _) hrest
    rw [String.toList_inj.1 (List.append_cancel_right hname), String.toList_inj.1 hty,
      showInitialized_injective hinitialized]
  case assignment.assignment =>
    rw [String.toList_inj.1 (List.cons.inj he).2]
  all_goals first | rfl | cases hkey

/-- A line says its head. -/
theorem text_injective (hp : h.Plain) (hp' : h'.Plain) (he : h.text = h'.text) : h = h' := by
  have hlists := congrArg String.toList he
  rw [toList_text, toList_text] at hlists
  obtain ⟨hkey, htail⟩ := Text.word_append_injective h.key.oneWord_text.space_not_mem
    h'.key.oneWord_text.space_not_mem h.head?_tail h'.head?_tail hlists
  exact tail_injective hp hp' (Key.text_injective (String.toList_inj.1 hkey)) htail

/-! Lines have no breaks in them, and do not start with a space. -/

theorem newline_not_mem_text (hp : h.Plain) : '\n' ∉ h.text.toList := by
  cases h with
  | node l span ty? =>
    have hl : '\n' ∉ l.text.toList := Label.newline_not_mem_text hp
    have hspan : '\n' ∉ span.display.toList := by
      simp [Span.toList_display, (Text.oneWord_numeral _).newline_not_mem]
    have htype : '\n' ∉ (showType ty?).toList := by
      cases ty? with
      | none => decide
      | some t => simp [showType, t.oneWord_name.newline_not_mem]
    simp [text, hl, hspan, htype]
  | declaration name ty initialized =>
    have hend : '\n' ∉ (showInitialized initialized).toList := by cases initialized <;> decide
    simp [text, hp.1.newline_not_mem, hp.2.newline_not_mem, hend]
  | assignment target => simp [text, Text.OneWord.newline_not_mem hp]
  | _ => simp [text]

theorem head?_text_ne_space (h : Head) : ∀ c ∈ h.text.toList.head?, c ≠ ' ' := by
  obtain ⟨c, cs, hkey⟩ := List.exists_cons_of_ne_nil h.key.text_ne_nil
  have hspace := h.key.oneWord_text.space_not_mem
  rw [hkey] at hspace
  rw [toList_text, hkey]
  simpa using (List.ne_of_not_mem_cons hspace).symm

end Head

end Outline

end LetLang
