import LetLang.Proofs.Text.Munch
import LetLang.Proofs.Text.Prefix

/-!
The words of Java, as far as generated classes need them: words of letters, numbers with all that
may belong to one, strings with their escapes, and all separators and operators. What opens a
comment or a text block is a symbol too, so that nothing is read from such a text.
-/

namespace LetLang.Java

open Text (Lexicon)

inductive WordKind where
  | word | number | string | symbol
  deriving DecidableEq, Repr

def isBlank (c : Char) : Bool := c = ' ' || c = '\t' || c = '\n' || c = '\r' || c = '\x0c'

def isWordStart (c : Char) : Bool := c.isAlpha || c = '_' || c = '$'

def isWordPart (c : Char) : Bool := c.isAlphanum || c = '_' || c = '$'

def isNumberPart (c : Char) : Bool := isWordPart c || c = '.'

def symbols : List String :=
  ["(", ")", "\x7b", "\x7d", "[", "]", ";", ",", ".", "...", "@", "::", "=", ">", "<", "!", "~",
    "?", ":", "->", "==", ">=", "<=", "!=", "&&", "||", "++", "--", "+", "-", "*", "/", "&", "|", "^", "%",
    "<<", ">>", ">>>", "+=", "-=", "*=", "/=", "&=", "|=", "^=", "%=", "<<=", ">>=", ">>>=",
    "//", "/*", "\"\"\""]

/-- The character that a letter behind a backslash stands for. -/
def escaped? : Char → Option Char
  | 'b' => some '\x08'
  | 't' => some '\t'
  | 'n' => some '\n'
  | 'f' => some '\x0c'
  | 'r' => some '\r'
  | 's' => some ' '
  | '"' => some '"'
  | '\x27' => some '\x27'
  | '\\' => some '\\'
  | _ => none

/-- What stands between two quotes, and the characters it stands for. -/
inductive StringBody : List Char → List Char → Prop
  | nil : StringBody [] []
  | plain {c : Char} {cs vs : List Char} :
      c ∉ ['"', '\\', '\n', '\r'] → StringBody cs vs → StringBody (c :: cs) (c :: vs)
  | escape {c v : Char} {cs vs : List Char} :
      escaped? c = some v → StringBody cs vs → StringBody ('\\' :: c :: cs) (v :: vs)

inductive IsWord : WordKind → List Char → Prop
  | word {c : Char} {cs : List Char} :
      isWordStart c → (∀ d ∈ cs, isWordPart d) → IsWord .word (c :: cs)
  | number {c : Char} {cs : List Char} :
      c.isDigit → (∀ d ∈ cs, isNumberPart d) → IsWord .number (c :: cs)
  | string {body vs : List Char} :
      StringBody body vs → IsWord .string ('"' :: (body ++ ['"']))
  | symbol {s : String} : s ∈ symbols → IsWord .symbol s.toList

theorem isDigit_of_isWordStart {c : Char} (h : isWordStart c) : c.isDigit = false := by
  simp only [isWordStart, Bool.or_eq_true, decide_eq_true_eq] at h
  rcases h with (h | rfl) | rfl
  · exact Text.isDigit_of_isAlpha h
  · decide
  · decide

/-- Words of letters can be told by looking at them. -/
theorem isWord_word_iff {cs : List Char} :
    IsWord .word cs ↔ (match cs with
      | [] => false
      | c :: cs => isWordStart c && cs.all isWordPart) = true := by
  refine ⟨fun h => ?_, fun h => ?_⟩
  · generalize hk : WordKind.word = k at h
    cases h with
    | word hc hcs => simp [hc, List.all_eq_true.2 hcs]
    | _ => cases hk
  · split at h
    · cases h
    · rw [Bool.and_eq_true, List.all_eq_true] at h
      exact .word h.1 h.2

instance (cs : List Char) : Decidable (IsWord .word cs) := decidable_of_iff _ isWord_word_iff.symm

/-- No symbol but the quotes of a text block starts like another word. -/
theorem symbol_cons {s : String} (hs : s ∈ symbols) :
    ∃ c cs, s.toList = c :: cs ∧ isBlank c = false ∧ isWordStart c = false ∧ c.isDigit = false ∧
      (c = '"' → cs = ['"', '"']) := by
  have hall : symbols.all fun s => match s.toList with
      | [] => false
      | c :: cs => !isBlank c && !isWordStart c && !c.isDigit && (c != '"' || cs == ['"', '"']) := by
    decide
  have h := List.all_eq_true.1 hall s hs
  split at h
  · cases h
  · next c cs hcs =>
    refine ⟨c, cs, hcs, ?_⟩
    simpa [and_assoc, Decidable.imp_iff_not_or] using h

/-- A blank starts no word. -/
theorem not_start_of_isBlank {c : Char} (h : isBlank c) :
    isWordStart c = false ∧ c.isDigit = false ∧ c ≠ '"' := by
  simp only [isBlank, Bool.or_eq_true, decide_eq_true_eq] at h
  rcases h with (((rfl | rfl) | rfl) | rfl) | rfl <;> decide

/-! What a word is that starts with a given character. -/

variable {k : WordKind} {c : Char} {cs : List Char}

theorem isWord_of_isWordStart (hc : isWordStart c) (h : IsWord k (c :: cs)) :
    k = .word ∧ ∀ d ∈ cs, isWordPart d := by
  generalize ht : c :: cs = text at h
  cases h with
  | word _ hcs => cases ht; exact ⟨rfl, hcs⟩
  | number hd _ => cases ht; rw [isDigit_of_isWordStart hc] at hd; cases hd
  | string _ => cases ht; exact absurd hc (by decide)
  | symbol hs =>
    obtain ⟨d, ds, hd, -, hn, -⟩ := symbol_cons hs
    cases ht.trans hd
    rw [hc] at hn
    cases hn

theorem isWord_of_isDigit (hc : c.isDigit) (h : IsWord k (c :: cs)) :
    k = .number ∧ ∀ d ∈ cs, isNumberPart d := by
  generalize ht : c :: cs = text at h
  cases h with
  | word hn _ => cases ht; rw [isDigit_of_isWordStart hn] at hc; cases hc
  | number _ hcs => cases ht; exact ⟨rfl, hcs⟩
  | string _ => cases ht; exact absurd hc (by decide)
  | symbol hs =>
    obtain ⟨d, ds, hd, -, -, hn, -⟩ := symbol_cons hs
    cases ht.trans hd
    rw [hc] at hn
    cases hn

theorem isWord_of_quote (h : IsWord k ('"' :: cs)) :
    (k = .string ∧ ∃ body vs, cs = body ++ ['"'] ∧ StringBody body vs) ∨
      (k = .symbol ∧ cs = ['"', '"']) := by
  generalize ht : '"' :: cs = text at h
  cases h with
  | word hn _ => cases ht; exact absurd hn (by decide)
  | number hd _ => cases ht; exact absurd hd (by decide)
  | string hb => cases ht; exact .inl ⟨rfl, _, _, rfl, hb⟩
  | symbol hs =>
    obtain ⟨d, ds, hd, -, -, -, hq⟩ := symbol_cons hs
    cases ht.trans hd
    exact .inr ⟨rfl, hq rfl⟩

theorem isWord_of_symbol {s : String} (hs : s ∈ symbols) (hcs : s.toList = c :: cs) (hq : c ≠ '"')
    {more : List Char} (h : IsWord k (s.toList ++ more)) :
    k = .symbol ∧ ∃ s' ∈ symbols, s'.toList = s.toList ++ more := by
  obtain ⟨d, ds, hd, -, hn, hn', -⟩ := symbol_cons hs
  cases hcs.symm.trans hd
  generalize ht : s.toList ++ more = text at h
  rw [hcs] at ht
  cases h with
  | word hn'' _ => cases ht; rw [hn''] at hn; cases hn
  | number hd' _ => cases ht; rw [hd'] at hn'; cases hn'
  | string _ => exact absurd (List.cons.inj ht).1 hq
  | symbol hs' => exact ⟨rfl, _, hs', rfl⟩

theorem StringBody.of_plain {vs : List Char} (hc : c ∉ ['"', '\\', '\n', '\r'])
    (h : StringBody (c :: cs) vs) : ∃ ws, vs = c :: ws ∧ StringBody cs ws := by
  rcases h with _ | ⟨-, h⟩ | _
  · exact ⟨_, rfl, h⟩
  · simp at hc

theorem StringBody.of_escape {vs : List Char} (h : StringBody ('\\' :: c :: cs) vs) :
    ∃ v ws, vs = v :: ws ∧ escaped? c = some v ∧ StringBody cs ws := by
  rcases h with _ | ⟨hc, -⟩ | ⟨hv, h⟩
  · simp at hc
  · exact ⟨_, _, rfl, hv, h⟩

/-- No quote stands in a string body but behind a backslash. -/
theorem StringBody.not_quote {body vs : List Char} (h : StringBody body vs) {more ws : List Char} :
    ¬ StringBody (body ++ '"' :: more) ws := by
  induction h generalizing ws with
  | nil =>
    intro h
    rcases h with _ | ⟨hc, -⟩
    simp at hc
  | plain hc _ ih =>
    intro h
    obtain ⟨ws, -, htail⟩ := h.of_plain hc
    exact ih htail
  | escape _ _ ih =>
    intro h
    obtain ⟨v, ws, -, -, htail⟩ := h.of_escape
    exact ih htail

theorem StringBody.unique {body vs ws : List Char} (h : StringBody body vs)
    (h' : StringBody body ws) : vs = ws := by
  induction h generalizing ws with
  | nil =>
    cases h'
    rfl
  | plain hc _ ih =>
    obtain ⟨ws, rfl, htail⟩ := h'.of_plain hc
    rw [ih htail]
  | escape hv _ ih =>
    obtain ⟨w, ws, rfl, hw, htail⟩ := h'.of_escape
    rw [ih htail, Option.some.inj (hv.symm.trans hw)]

theorem not_stringBody_of_block {body vs : List Char} (he : body ++ ['"'] = ['"', '"']) :
    ¬ StringBody body vs := by
  obtain rfl : body = ['"'] := List.append_cancel_right (he.trans (List.singleton_append ..).symm)
  exact StringBody.not_quote .nil

theorem IsWord.starts {text : List Char} (h : IsWord k text) :
    ∃ c cs, text = c :: cs ∧ isBlank c = false := by
  cases h with
  | word hc _ =>
    refine ⟨_, _, rfl, Bool.eq_false_iff.2 fun hb => ?_⟩
    simp [not_start_of_isBlank hb] at hc
  | number hc _ =>
    refine ⟨_, _, rfl, Bool.eq_false_iff.2 fun hb => ?_⟩
    simp [not_start_of_isBlank hb] at hc
  | string _ => exact ⟨_, _, rfl, by decide⟩
  | symbol hs =>
    obtain ⟨c, cs, hcs, hb, -⟩ := symbol_cons hs
    exact ⟨c, cs, hcs, hb⟩

theorem IsWord.kind_unique {k' : WordKind} {text : List Char} (h : IsWord k text)
    (h' : IsWord k' text) : k = k' := by
  cases h with
  | word hc _ => exact (isWord_of_isWordStart hc h').1.symm
  | number hc _ => exact (isWord_of_isDigit hc h').1.symm
  | string hb =>
    rcases isWord_of_quote h' with ⟨rfl, -⟩ | ⟨-, hq⟩
    · rfl
    · exact absurd hb (not_stringBody_of_block hq)
  | symbol hs =>
    obtain ⟨c, cs, hcs, -, -, -, hq⟩ := symbol_cons hs
    by_cases hc : c = '"'
    · subst hc
      rw [hcs, hq rfl] at h'
      rcases isWord_of_quote h' with ⟨-, body, vs, he, hb⟩ | ⟨rfl, -⟩
      · exact absurd hb (not_stringBody_of_block he.symm)
      · rfl
    · rw [← List.append_nil (String.toList _)] at h'
      exact (isWord_of_symbol hs hcs hc h').1.symm

/-- The words of Java, with blanks between them. -/
def lexicon : Lexicon WordKind where
  blank := isBlank
  IsWord := IsWord
  starts := IsWord.starts
  kind_unique := IsWord.kind_unique

/-! One lemma for each class: where a word ends. -/

theorem longest_word {text rest : List Char} (h : IsWord .word text)
    (hrest : ∀ d ∈ rest.head?, isWordPart d = false) : lexicon.Longest .word text rest := by
  refine ⟨h, fun k' more after hafter hw => ?_⟩
  obtain ⟨c, cs, rfl, hc⟩ : ∃ c cs, text = c :: cs ∧ isWordStart c := by
    cases h with
    | word hc _ => exact ⟨_, _, rfl, hc⟩
  obtain ⟨-, hall⟩ := isWord_of_isWordStart hc hw
  exact Text.eq_nil_of_all hrest hafter fun d hd => hall d (List.mem_append_right _ hd)

theorem longest_number {text rest : List Char} (h : IsWord .number text)
    (hrest : ∀ d ∈ rest.head?, isNumberPart d = false) : lexicon.Longest .number text rest := by
  refine ⟨h, fun k' more after hafter hw => ?_⟩
  obtain ⟨c, cs, rfl, hc⟩ : ∃ c cs, text = c :: cs ∧ c.isDigit := by
    cases h with
    | number hc _ => exact ⟨_, _, rfl, hc⟩
  obtain ⟨-, hall⟩ := isWord_of_isDigit hc hw
  exact Text.eq_nil_of_all hrest hafter fun d hd => hall d (List.mem_append_right _ hd)

theorem longest_string {body vs rest : List Char} (h : StringBody body vs)
    (hrest : ∀ d ∈ rest.head?, d ≠ '"') :
    lexicon.Longest .string ('"' :: (body ++ ['"'])) rest := by
  refine ⟨.string h, fun k' more after hafter hw => ?_⟩
  rcases isWord_of_quote hw with ⟨-, body', ws, he, hb⟩ | ⟨-, he⟩
  · -- a longer string would have the closing quote inside
    rcases List.eq_nil_or_concat more with rfl | ⟨init, last, rfl⟩
    · rfl
    · have he' : (body ++ '"' :: init) ++ [last] = body' ++ ['"'] := by simpa using he
      obtain ⟨rfl, -⟩ := List.append_inj' he' rfl
      exact absurd hb h.not_quote
  · -- the quotes of a text block: the next character would be one of them
    cases body with
    | nil =>
      obtain rfl : more = ['"'] := by simpa using he
      exact absurd rfl (hrest '"' (by simp [hafter]))
    | cons b body =>
      have hlen := congrArg List.length he
      simp at hlen
      exact List.eq_nil_of_length_eq_zero (by omega)

/-- The symbols that no other symbol starts with. -/
def closers : List String := ["(", ")", "\x7b", "\x7d", "[", "]", ";", ","]

theorem longest_closing {s : String} (hs : s ∈ closers) {rest : List Char} :
    lexicon.Longest .symbol s.toList rest := by
  have hall : closers.all fun s => symbols.contains s && s.toList.head? != some '"' &&
      symbols.all fun s' => s' == s || !s.toList.isPrefixOf s'.toList := by
    decide
  have h := List.all_eq_true.1 hall s hs
  simp only [Bool.and_eq_true, List.contains_eq_mem, decide_eq_true_eq, List.all_eq_true,
    Bool.or_eq_true, Bool.not_eq_true', beq_iff_eq, bne_iff_ne] at h
  obtain ⟨⟨hmem, hq⟩, h⟩ := h
  refine ⟨.symbol hmem, fun k' more after hafter hw => ?_⟩
  obtain ⟨c, cs, hcs, -⟩ := symbol_cons hmem
  obtain ⟨-, s', hs', he⟩ := isWord_of_symbol hmem hcs (by simpa [hcs] using hq) hw
  rcases h s' hs' with rfl | hno
  · simpa using he
  · rw [he, List.isPrefixOf_iff_prefix.2 (List.prefix_append ..)] at hno
    cases hno

/-- A symbol ends where a blank or a word of letters follows. -/
theorem longest_symbol {s : String} (hs : s ∈ symbols) (hq : s.toList.head? ≠ some '"')
    {rest : List Char} (hrest : ∀ d ∈ rest.head?, isBlank d || isWordStart d) :
    lexicon.Longest .symbol s.toList rest := by
  have hall : symbols.all fun s => s.toList.all fun d => !(isBlank d || isWordStart d) := by
    decide
  refine ⟨.symbol hs, fun k' more after hafter hw => ?_⟩
  obtain ⟨c, cs, hcs, -⟩ := symbol_cons hs
  obtain ⟨-, s', hs', he⟩ := isWord_of_symbol hs hcs (by simpa [hcs] using hq) hw
  have h := List.all_eq_true.1 (List.all_eq_true.1 hall s' hs')
  cases more with
  | nil => rfl
  | cons d more =>
    have hd := h d (by simp [he])
    rw [hrest d (by simp [hafter])] at hd
    cases hd

end LetLang.Java
