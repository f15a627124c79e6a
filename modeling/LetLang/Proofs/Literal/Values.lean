import LetLang.Java
import LetLang.Proofs.Literal.Decimal
import LetLang.Proofs.Token.Lexemes
import LetLang.Proofs.Tree.Reads

/-! What a literal word comes to in Java, or why it is refused. A number keeps its value and loses
the zeros in front, and the characters of a string are written as they are. This is a rule about
words; the check of a literal and the generator together do what the rule says. -/

namespace LetLang

open Rules
open Text (isDigits digitsValue IsNumeral)
open Parser (literal?)

inductive Rules.Renders : Word → Except LiteralError (List Char) → Prop
  | integer {digits kept : List Char} :
      digitsValue digits ≤ 2147483647 → IsNumeral kept → digitsValue kept = digitsValue digits →
      Renders ⟨.integer, digits⟩ (.ok kept)
  | integerOutOfRange {digits : List Char} :
      2147483647 < digitsValue digits → Renders ⟨.integer, digits⟩ (.error .integerOutOfRange)
  | decimal {cs kept : List Char} {q : Rat} :
      SpellsFraction cs q → q < (Nat.pow 10 31 : Nat) → BoundedDecimal.Keeps cs kept →
      Renders ⟨.decimal, cs⟩ (.ok kept)
  | decimalOutOfRange {cs : List Char} {q : Rat} :
      SpellsFraction cs q → (Nat.pow 10 31 : Nat) ≤ q →
      Renders ⟨.decimal, cs⟩ (.error .decimalOutOfRange)
  | string {inner : List Char} :
      (∀ c ∈ inner, PlainString.allows c) →
      Renders ⟨.string, '"' :: inner ++ ['"']⟩ (.ok ('"' :: inner ++ ['"']))
  | invalidCharacter {before after : List Char} {c : Char} :
      (∀ d ∈ before, PlainString.allows d) → PlainString.allows c = false →
      Renders ⟨.string, '"' :: (before ++ c :: after) ++ ['"']⟩ (.error (.invalidCharacter c))
  | true : Renders (.keyword .TRUE) (.ok "true".toList)
  | false : Renders (.keyword .FALSE) (.ok "false".toList)

/-- A number, a string, or one of the two truth values. -/
def Word.isLiteral (w : Word) : Bool :=
  w.kind = .integer || w.kind = .decimal || w.kind = .string ||
    w = .keyword .TRUE || w = .keyword .FALSE

/-- What a literal is written as, if it passes its check. -/
def RawLiteral.rendered (raw : RawLiteral) : Except LiteralError (List Char) :=
  raw.check.map fun l => (Java.literal l).toList

/-! Decimals. -/

theorem Rules.SpellsFraction.unique {cs : List Char} {q q' : Rat} (h : SpellsFraction cs q)
    (h' : SpellsFraction cs q') : q = q' := by
  cases h with
  | @point whole fraction hw hf =>
    generalize hcs : whole ++ '.' :: fraction = cs at h'
    cases h' with
    | point hw' hf' =>
      obtain ⟨rfl, rfl⟩ :=
        Text.append_cons_injective (Text.point_not_mem hw) (Text.point_not_mem hw') hcs
      rfl

/-- A text is kept in one way. -/
theorem BoundedDecimal.Keeps.unique {cs kept kept' : List Char} (h : Keeps cs kept)
    (h' : Keeps cs kept') : kept = kept' := by
  obtain ⟨whole, numeral, fraction, hw, -, rfl, rfl, hn, hv, -⟩ := h.digits
  obtain ⟨whole', numeral', fraction', hw', -, hcs, rfl, hn', hv', -⟩ := h'.digits
  obtain ⟨rfl, rfl⟩ :=
    Text.append_cons_injective (Text.point_not_mem hw) (Text.point_not_mem hw') hcs
  rw [hn.eq_numeral, hn'.eq_numeral, hv, hv']

/-! Strings. -/

theorem PlainString.find?_of_allows {before after : List Char} {c : Char}
    (hbefore : ∀ d ∈ before, allows d) (hc : allows c = false) :
    (before ++ c :: after).find? (!allows ·) = some c := by
  rw [List.find?_eq_some_iff_append]
  exact ⟨by rw [hc]; rfl, before, after, rfl, fun d hd => by rw [hbefore d hd]; rfl⟩

theorem PlainString.ofString_eq_error {text : String} {c : Char}
    (h : text.toList.find? (!allows ·) = some c) : ofString text = .error c := by
  unfold ofString
  split
  · next d hd => rw [Option.some.inj (hd.symm.trans h)]
  · next hnone => cases hnone.symm.trans h

/-- No character that a string may hold is escaped. -/
theorem Java.flatMap_escape {cs : List Char} (h : ∀ c ∈ cs, PlainString.allows c) :
    cs.flatMap escape = cs := by
  induction cs with
  | nil => rfl
  | cons c cs ih =>
    obtain ⟨hc, hcs⟩ := List.forall_mem_cons.1 h
    have hplain : escape c = [c] := by
      apply if_neg
      intro he
      cases he with
      | inl he => exact absurd (he ▸ hc) (by decide)
      | inr he => exact absurd (he ▸ hc) (by decide)
    rw [List.flatMap_cons, hplain, ih hcs, List.singleton_append]

/-! The rule and the check. -/

namespace RawLiteral

theorem rendered_eq_ok {raw : RawLiteral} {l : Literal} (h : LiteralTyped raw l) :
    raw.rendered = .ok (Java.literal l).toList := by
  rw [rendered, check_eq_ok_iff.2 h]
  rfl

theorem rendered_eq_error {raw : RawLiteral} {e : LiteralError} (h : raw.check = .error e) :
    raw.rendered = .error e := by
  rw [rendered, h]
  rfl

variable {cs : List Char}

theorem rendered_integer (hd : isDigits cs) (h : digitsValue cs ≤ 2147483647) :
    (integer (String.ofList cs)).rendered = .ok (Text.numeral (digitsValue cs)) := by
  have hlimit : BoundedInteger.limit = 2147483648 := rfl
  let i : BoundedInteger := ⟨digitsValue cs, by omega, by omega⟩
  have hspells : Spells (String.ofList cs).toList i.value := by
    rw [String.toList_ofList]
    exact .unsigned hd
  rw [rendered_eq_ok (.integer hspells), Java.literal, BoundedInteger.text, String.toList_ofList]
  rfl

theorem rendered_integer_eq_error (hd : isDigits cs) (h : 2147483647 < digitsValue cs) :
    (integer (String.ofList cs)).rendered = .error .integerOutOfRange := by
  have hnone : BoundedInteger.ofChars? (String.ofList cs).toList = none := by
    rw [String.toList_ofList, Option.eq_none_iff_forall_ne_some]
    intro i hi
    have hvalue := (BoundedInteger.ofChars?_eq_some_iff.1 hi).eq_digitsValue hd
    have hlt := i.value_lt
    rw [BoundedInteger.limit] at hlt
    omega
  apply rendered_eq_error
  rw [check, hnone]

theorem rendered_decimal {d : BoundedDecimal} (h : BoundedDecimal.ofChars? cs = some d) :
    (decimal (String.ofList cs)).rendered = .ok d.text.toList := by
  obtain ⟨whole, hcs, hw, hv⟩ := BoundedDecimal.ofChars?_eq_some_iff.1 h
  rw [← String.toList_ofList (l := cs)] at hcs
  have htyped : LiteralTyped (decimal (String.ofList cs)) (.decimal d) := .decimal hcs hw hv
  rw [rendered_eq_ok htyped, Java.literal]

theorem rendered_decimal_eq_error (h : BoundedDecimal.ofChars? cs = none) :
    (decimal (String.ofList cs)).rendered = .error .decimalOutOfRange := by
  apply rendered_eq_error
  rw [check, String.toList_ofList, h]

theorem rendered_string (h : ∀ c ∈ cs, PlainString.allows c) :
    (string (String.ofList cs)).rendered = .ok ('"' :: cs ++ ['"']) := by
  let s : PlainString :=
    ⟨String.ofList cs, by rw [String.toList_ofList]; exact List.all_eq_true.2 h⟩
  have htyped : LiteralTyped (string (String.ofList cs)) (.string s) := @LiteralTyped.string s
  rw [rendered_eq_ok htyped, Java.literal, String.toList_ofList, String.toList_ofList,
    Java.flatMap_escape h]

theorem rendered_string_eq_error {c : Char} (h : cs.find? (!PlainString.allows ·) = some c) :
    (string (String.ofList cs)).rendered = .error (.invalidCharacter c) := by
  apply rendered_eq_error
  rw [check, PlainString.ofString_eq_error (by rwa [String.toList_ofList])]

end RawLiteral

theorem literal?_ofWord_string (inner : List Char) :
    literal? (.ofWord ⟨.string, '"' :: inner ++ ['"']⟩) = some (.string (String.ofList inner)) := by
  simp [Spelling.ofWord, literal?]

variable {w : Word} {raw : RawLiteral}

/-- A word is checked and written as the rule says. -/
theorem rendered_of_renders {r : Except LiteralError (List Char)}
    (hw : Lexer.IsWord w.kind w.text) (hraw : literal? (.ofWord w) = some raw)
    (h : Renders w r) : raw.rendered = r := by
  cases h with
  | integer hle hkept hvalue =>
    obtain rfl := Option.some.inj hraw
    rw [RawLiteral.rendered_integer hw.isDigits hle, ← hvalue, ← hkept.eq_numeral]
  | integerOutOfRange hlt =>
    obtain rfl := Option.some.inj hraw
    exact RawLiteral.rendered_integer_eq_error hw.isDigits hlt
  | decimal hq hlt hkept =>
    obtain rfl := Option.some.inj hraw
    obtain ⟨d, hd⟩ := BoundedDecimal.exists_ofChars?_iff.2 ⟨_, hq, hlt⟩
    rw [RawLiteral.rendered_decimal hd, (BoundedDecimal.keeps_of_ofChars? hd).unique hkept]
  | decimalOutOfRange hq hle =>
    obtain rfl := Option.some.inj hraw
    apply RawLiteral.rendered_decimal_eq_error
    rw [Option.eq_none_iff_forall_ne_some]
    intro d hd
    obtain ⟨q', hq', hlt⟩ := BoundedDecimal.exists_ofChars?_iff.1 ⟨d, hd⟩
    rw [hq'.unique hq] at hlt
    exact Rat.not_lt.2 hle hlt
  | string hall =>
    obtain rfl := Option.some.inj ((literal?_ofWord_string _).symm.trans hraw)
    exact RawLiteral.rendered_string hall
  | invalidCharacter hbefore hc =>
    obtain rfl := Option.some.inj ((literal?_ofWord_string _).symm.trans hraw)
    exact RawLiteral.rendered_string_eq_error (PlainString.find?_of_allows hbefore hc)
  | true =>
    obtain rfl := Option.some.inj hraw
    rfl
  | false =>
    obtain rfl := Option.some.inj hraw
    rfl

theorem keyword_of_literal? {x : String} (h : literal? (.ofIdentifier x) = some raw) :
    x = Keyword.TRUE.spelling ∨ x = Keyword.FALSE.spelling := by
  unfold Spelling.ofIdentifier at h
  split at h
  · next k hk =>
    rw [← Keyword.spelling_of_ofText? hk]
    cases k with
    | TRUE => exact .inl rfl
    | FALSE => exact .inr rfl
    | _ => cases h
  · cases h

/-- The words that are read as literals. -/
theorem isSome_literal?_ofWord (hw : Lexer.IsWord w.kind w.text) :
    (literal? (.ofWord w)).isSome = Word.isLiteral w := by
  obtain ⟨kind, text⟩ := w
  cases hw with
  | @identifier c cs _ _ =>
    rw [Bool.eq_iff_iff, Option.isSome_iff_exists]
    constructor
    · intro ⟨raw, hraw⟩
      rcases keyword_of_literal? hraw with h | h <;>
        simp [Word.isLiteral, Word.keyword, ← h]
    · intro h
      have hword : ⟨.identifier, c :: cs⟩ = Word.keyword .TRUE ∨
          ⟨.identifier, c :: cs⟩ = Word.keyword .FALSE := by
        simpa [Word.isLiteral] using h
      rcases hword with hword | hword <;> exact ⟨_, by rw [hword]; rfl⟩
  | mark m => simp [Word.isLiteral, Word.keyword, Spelling.ofWord, literal?]
  | _ => rfl

/-- The rule says something of every literal word. -/
theorem exists_renders (hw : Lexer.IsWord w.kind w.text) (hraw : literal? (.ofWord w) = some raw) :
    ∃ r, Renders w r := by
  obtain ⟨kind, text⟩ := w
  cases hw with
  | @identifier c cs _ _ =>
    rcases keyword_of_literal? hraw with h | h
    · have htext : c :: cs = Keyword.TRUE.spelling.toList := by rw [← h, String.toList_ofList]
      rw [htext]
      exact ⟨_, .true⟩
    · have htext : c :: cs = Keyword.FALSE.spelling.toList := by rw [← h, String.toList_ofList]
      rw [htext]
      exact ⟨_, .false⟩
  | integer hd =>
    by_cases hle : digitsValue text ≤ 2147483647
    · exact ⟨_, .integer hle (Text.isNumeral_numeral _) (Text.digitsValue_numeral _)⟩
    · exact ⟨_, .integerOutOfRange (Nat.lt_of_not_le hle)⟩
  | @decimal whole fraction hwhole hf =>
    have hq := SpellsFraction.point hwhole hf
    generalize mkRat _ _ = q at hq
    by_cases hlt : q < (Nat.pow 10 31 : Nat)
    · obtain ⟨d, hd⟩ := BoundedDecimal.exists_ofChars?_iff.2 ⟨q, hq, hlt⟩
      exact ⟨_, .decimal hq hlt (BoundedDecimal.keeps_of_ofChars? hd)⟩
    · exact ⟨_, .decimalOutOfRange hq (Rat.not_lt.1 hlt)⟩
  | @string inner _ =>
    cases hfind : inner.find? (!PlainString.allows ·) with
    | none =>
      refine ⟨_, .string fun c hc => ?_⟩
      simpa using List.find?_eq_none.1 hfind c hc
    | some c =>
      obtain ⟨hc, before, after, rfl, hbefore⟩ := List.find?_eq_some_iff_append.1 hfind
      exact ⟨_, .invalidCharacter (fun d hd => by simpa using hbefore d hd) (by simpa using hc)⟩
  | mark m => cases hraw

/-- A literal word comes to what its check and the generator make of it. -/
theorem renders_iff (hw : Lexer.IsWord w.kind w.text) (hraw : literal? (.ofWord w) = some raw)
    {r : Except LiteralError (List Char)} : Renders w r ↔ raw.rendered = r := by
  constructor
  · intro h
    exact rendered_of_renders hw hraw h
  · intro h
    obtain ⟨r', hr⟩ := exists_renders hw hraw
    rwa [← h, rendered_of_renders hw hraw hr]

end LetLang
