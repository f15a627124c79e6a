import LetLang.Java
import LetLang.Proofs.Java.Grammar
import LetLang.Proofs.Text.Numeral
import LetLang.Proofs.Typing.Judgements

/-!
Printed texts and their words. Most texts say their words in front of anything; a word of letters, a
number or a string does in front of what can not belong to it.
-/

namespace LetLang.Java

/-- The constant that a literal is. -/
def constant : LetLang.Literal → Constant
  | .bool b => .bool b
  | .integer i => .int i.value
  | .decimal d => .double d.whole d.fraction
  | .string s => .string s.text

/-! Texts and the words they say in front of others. -/

/-- Nothing here goes on with a word of letters, a number or a string. -/
def Apart (rest : List Char) : Prop := ∀ d ∈ rest.head?, isNumberPart d = false ∧ d ≠ '"'

/-- These words are said in front of anything. -/
def Sealed (text : List Char) (ws : List Atom) : Prop :=
  ∀ rest us, lexicon.Says rest us → lexicon.Says (text ++ rest) (ws ++ us)

/-- These words are said in front of what is apart. -/
def Printed (text : List Char) (ws : List Atom) : Prop :=
  ∀ rest us, Apart rest → lexicon.Says rest us → lexicon.Says (text ++ rest) (ws ++ us)

variable {text text' : List Char} {ws ws' : List Atom}

theorem Sealed.printed (h : Sealed text ws) : Printed text ws := fun rest us _ hr => h rest us hr

theorem Sealed.nil : Sealed [] [] := fun _ _ h => h

theorem Sealed.append (h : Sealed text ws) (h' : Sealed text' ws') :
    Sealed (text ++ text') (ws ++ ws') := by
  intro rest us hr
  rw [List.append_assoc, List.append_assoc]
  exact h _ _ (h' _ _ hr)

theorem Sealed.printed_append (h : Sealed text ws) (h' : Printed text' ws') :
    Printed (text ++ text') (ws ++ ws') := by
  intro rest us ha hr
  rw [List.append_assoc, List.append_assoc]
  exact h _ _ (h' _ _ ha hr)

theorem Printed.append {c : Char} (h : Printed text ws) (h' : Sealed (c :: text') ws')
    (hc : isNumberPart c = false ∧ c ≠ '"') : Sealed (text ++ c :: text') (ws ++ ws') := by
  intro rest us hr
  rw [List.append_assoc, List.append_assoc]
  refine h _ _ ?_ (h' _ _ hr)
  intro d hd
  obtain rfl := Option.some.inj hd
  exact hc

theorem sealed_blanks {n : Nat} {c : Char} (hc : isBlank c) : Sealed (List.replicate n c) [] := by
  intro rest us hr
  induction n with
  | zero => exact hr
  | succ n ih => exact .blank hc ih

theorem sealed_blank {c : Char} (hc : isBlank c) : Sealed [c] [] := @sealed_blanks 1 c hc

theorem sealed_closing {s : String} (hs : s ∈ closers) : Sealed s.toList [symbol s] :=
  fun _ _ hr => .word (longest_closing hs) hr

theorem Apart.not_isWordPart {rest : List Char} (h : Apart rest) :
    ∀ d ∈ rest.head?, isWordPart d = false := by
  intro d hd
  have := (h d hd).1
  simp only [isNumberPart, Bool.or_eq_false_iff] at this
  exact this.1

theorem printed_word {x : String} (hx : IsWord .word x.toList) : Printed x.toList [word x] :=
  fun _ _ ha hr => .word (longest_word hx ha.not_isWordPart) hr

theorem printed_number {digits : List Char} (h : IsWord .number digits) :
    Printed digits [⟨.number, digits⟩] :=
  fun _ _ ha hr => .word (longest_number h fun d hd => (ha d hd).1) hr

theorem printed_string {body vs : List Char} (h : StringBody body vs) :
    Printed ('"' :: (body ++ ['"'])) [⟨.string, '"' :: (body ++ ['"'])⟩] :=
  fun _ _ ha hr => .word (longest_string h fun d hd => (ha d hd).2) hr

theorem Printed.space (h : Printed text ws) : Sealed (text ++ [' ']) ws := by
  have hspace : Sealed [' '] [] := sealed_blank (by decide)
  have := h.append hspace (by decide)
  rwa [List.append_nil] at this

theorem Printed.close {s : String} (h : Printed text ws) (hs : s ∈ closers) :
    Sealed (text ++ s.toList) (ws ++ [symbol s]) := by
  have hall : closers.all fun s => s.toList.head?.any fun c => !isNumberPart c && c != '"' := by
    decide
  obtain ⟨c, hhead, hc⟩ := (Option.any_eq_true _ _).1 (List.all_eq_true.1 hall s hs)
  obtain ⟨cs, hcs⟩ := List.head?_eq_some_iff.1 hhead
  have hsealed := sealed_closing hs
  rw [hcs] at hsealed ⊢
  exact h.append hsealed (by simpa using hc)

/-- A word and a space. -/
theorem sealed_word {x : String} (hx : IsWord .word x.toList) :
    Sealed (x.toList ++ [' ']) [word x] :=
  (printed_word hx).space

theorem sealed_words {xs : List String} (h : ∀ x ∈ xs, IsWord .word x.toList) :
    Sealed (xs.flatMap fun x => x.toList ++ [' ']) (xs.map word) := by
  induction xs with
  | nil => exact Sealed.nil
  | cons x xs ih =>
    obtain ⟨hx, hxs⟩ := List.forall_mem_cons.1 h
    exact (sealed_word hx).append (ih hxs)

/-- A symbol and a space. -/
theorem sealed_symbol {s : String} (hs : s ∈ symbols) (hq : s.toList.head? ≠ some '"') :
    Sealed (s.toList ++ [' ']) [symbol s] := by
  intro rest us hr
  rw [List.append_assoc]
  refine .word (longest_symbol hs hq ?_) (.blank (by decide) hr)
  intro d hd
  obtain rfl := Option.some.inj hd
  decide

theorem sealed_operator (op : Operator) :
    Sealed (op.spelling.toList ++ [' ']) [symbol op.spelling] := by
  have hall : ∀ op ∈ Operator.all,
      op.spelling ∈ symbols ∧ op.spelling.toList.head? ≠ some '"' := by
    decide
  obtain ⟨hs, hq⟩ := hall op op.mem_all
  exact sealed_symbol hs hq

theorem IsWord.head {x : String} (h : IsWord .word x.toList) :
    ∃ c cs, x.toList = c :: cs ∧ isWordStart c := by
  generalize x.toList = text at h
  cases h with
  | word hc _ => exact ⟨_, _, rfl, hc⟩

namespace Grammar

theorem Dotted.head {hs : List Atom} {host : String} (h : Dotted hs host) :
    ∃ c cs, host.toList = c :: cs ∧ isWordStart c := by
  cases h with
  | last hx => exact hx.isWord.head
  | @more x y ws hx _ =>
    obtain ⟨c, cs, hc, hstart⟩ := hx.isWord.head
    exact ⟨c, cs ++ '.' :: y.toList, by simp [hc], hstart⟩

theorem Dotted.printed {hs : List Atom} {host : String} (h : Dotted hs host) :
    Printed host.toList hs := by
  induction h with
  | last hx => exact printed_word hx.isWord
  | @more x y ws hx h ih =>
    intro rest us ha hr
    obtain ⟨c, cs, hc, hstart⟩ := h.head
    have hpoint : lexicon.Longest .symbol ".".toList (y.toList ++ rest) := by
      refine longest_symbol (by decide) (by decide) ?_
      intro d hd
      simp only [hc, List.cons_append, List.head?_cons, Option.mem_some_iff] at hd
      simp [← hd, hstart]
    have hword : lexicon.Longest .word x.toList (".".toList ++ (y.toList ++ rest)) := by
      refine longest_word hx.isWord ?_
      intro d hd
      obtain rfl := Option.some.inj hd
      decide
    simp only [String.toList_append, List.append_assoc]
    exact .word hword (.word hpoint (ih rest us ha hr))

theorem Tail.snoc : {n : Nat} → {l t : Term} → {ts : List Atom} → Tail n l ts t →
    ∀ {op : Operator} {rs : List Atom} {r : Term}, op.layer = n → Layer (n + 1) rs r →
    Tail n l (ts ++ symbol op.spelling :: rs) (.binary op t r)
  | _, _, _, _, .done, op, rs, r, hop, hr => by
    rw [List.nil_append, ← List.append_nil rs]
    exact .step hop hr .done
  | _, _, _, _, .step hop' hr' ht, op, rs, r, hop, hr => by
    have := Tail.step hop' hr' (ht.snoc hop hr)
    rwa [← List.append_assoc] at this

/-- A chain goes on with one more operand. -/
theorem Layer.snoc {n : Nat} {ls rs : List Atom} {l r : Term} {op : Operator}
    (h : Layer n ls l) (hop : op.layer = n) (hr : Layer (n + 1) rs r) :
    Layer n (ls ++ symbol op.spelling :: rs) (.binary op l r) := by
  cases h with
  | chain hn hh ht =>
    rw [List.append_assoc]
    exact .chain hn hh (ht.snoc hop hr)
  | primary _ =>
    have := op.layer_le
    omega

theorem Layer.wider {n : Nat} {ws : List Atom} {t : Term} (hn : n < 3) (h : Layer (n + 1) ws t) :
    Layer n ws t := by
  have := Layer.chain hn h .done
  rwa [List.append_nil] at this

end Grammar

/-! Literals. -/

theorem isNumberPart_of_isDigit {c : Char} (h : c.isDigit) : isNumberPart c := by
  simp [isNumberPart, isWordPart, Char.isAlphanum, h]

theorem isWord_of_isDigits {cs : List Char} (h : Text.isDigits cs) : IsWord .number cs := by
  obtain ⟨d, ds, rfl, hd⟩ := Text.isDigits_cons h
  exact .number hd fun c hc =>
    isNumberPart_of_isDigit (Text.isDigit_of_mem h (List.mem_cons_of_mem _ hc))

theorem isWord_of_decimal {whole fraction : List Char} (hw : Text.isDigits whole)
    (hf : Text.isDigits fraction) : IsWord .number (whole ++ '.' :: fraction) := by
  obtain ⟨d, ds, rfl, hd⟩ := Text.isDigits_cons hw
  refine .number hd fun c hc => ?_
  rcases List.mem_append.1 hc with hc | hc
  · exact isNumberPart_of_isDigit (Text.isDigit_of_mem hw (List.mem_cons_of_mem _ hc))
  · rcases List.mem_cons.1 hc with rfl | hc
    · decide
    · exact isNumberPart_of_isDigit (Text.isDigit_of_mem hf hc)

theorem stringBody_escape {cs : List Char} (h : ∀ c ∈ cs, c ≠ '\n' ∧ c ≠ '\r') :
    StringBody (cs.flatMap escape) cs := by
  induction cs with
  | nil => exact .nil
  | cons c cs ih =>
    obtain ⟨hc, hcs⟩ := List.forall_mem_cons.1 h
    rw [List.flatMap_cons, escape]
    split
    · next he => rcases he with rfl | rfl <;> exact .escape (by decide) (ih hcs)
    · next he =>
      rw [not_or] at he
      exact .plain (by simp [he, hc]) (ih hcs)

theorem PlainString.no_line_end {c : Char} (h : PlainString.allows c) : c ≠ '\n' ∧ c ≠ '\r' := by
  refine ⟨?_, ?_⟩
  · rintro rfl
    exact absurd h (by decide)
  · rintro rfl
    exact absurd h (by decide)

/-- A literal that stands without a sign is printed as a literal of its value. -/
theorem printed_literal {raw : RawLiteral} {l : LetLang.Literal} (h : Rules.LiteralTyped raw l)
    (hraw : ∀ digits, raw = .integer digits → Text.isDigits digits.toList) :
    ∃ w, Grammar.Literal w (constant l) ∧ Printed (literal l).toList [w] := by
  cases h with
  | @bool b =>
    cases b with
    | true => exact ⟨_, .true, printed_word (by decide)⟩
    | false => exact ⟨_, .false, printed_word (by decide)⟩
  | @integer digits i h =>
    obtain ⟨n, hn⟩ : ∃ n : Nat, i.value = n := ⟨_, h.eq_digitsValue (hraw digits rfl)⟩
    have hvalue : constant (.integer i) = .int (Text.digitsValue (Text.numeral n)) := by
      rw [Text.digitsValue_numeral, ← hn]
      rfl
    have htext : (literal (.integer i)).toList = Text.numeral n := by
      simp [literal, BoundedInteger.text, hn, Text.integerNumeral]
    have hlt : n < 2147483648 := by
      have := i.value_lt
      rw [hn, BoundedInteger.limit] at this
      omega
    rw [hvalue, htext]
    refine ⟨_, .int (Text.isDigits_numeral n) (Text.isNumeral_numeral n).head_zero ?_,
      printed_number (isWord_of_isDigits (Text.isDigits_numeral n))⟩
    rwa [Text.digitsValue_numeral]
  | @decimal digits whole d _ _ _ =>
    have hvalue : constant (.decimal d) =
        .double (Text.digitsValue (Text.numeral d.whole)) d.fraction := by
      rw [Text.digitsValue_numeral]
      rfl
    have htext : (literal (.decimal d)).toList = Text.numeral d.whole ++ '.' :: d.fraction :=
      String.toList_ofList
    rw [hvalue, htext]
    have hwhole := Text.isDigits_numeral d.whole
    exact ⟨_, .double hwhole d.isDigits_fraction,
      printed_number (isWord_of_decimal hwhole d.isDigits_fraction)⟩
  | @string s =>
    have hbody : StringBody (s.text.toList.flatMap escape) s.text.toList :=
      stringBody_escape fun c hc => PlainString.no_line_end (List.all_eq_true.1 s.all_allowed c hc)
    have hvalue : constant (.string s) = .string (String.ofList s.text.toList) := by
      rw [String.ofList_toList]
      rfl
    have htext : (literal (.string s)).toList =
        '"' :: (s.text.toList.flatMap escape ++ ['"']) := String.toList_ofList
    rw [hvalue, htext]
    exact ⟨_, .string hbody, printed_string hbody⟩

end LetLang.Java
