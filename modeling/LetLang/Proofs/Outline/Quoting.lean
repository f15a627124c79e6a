import LetLang.Proofs.Text.Prefix
import LetLang.Text.Quoted

/-!
Quoted strings can be read back. An escaped character can be told at the start of any text, and it
never starts with the quote, so the closing quote is found; and a quoted string has no line feed in
it, whatever the string has.
-/

namespace LetLang.Text

/-! Hexadecimal digits. -/

def hexDigitValue (c : Char) : Nat :=
  if c.isDigit then c.toNat - '0'.toNat else c.toNat - 'a'.toNat + 10

def hexValue (cs : List Char) : Nat := cs.foldl (fun n c => 16 * n + hexDigitValue c) 0

theorem hexDigitValue_digitChar : ∀ d < 16, hexDigitValue d.digitChar = d := by
  decide

theorem hexValue_toDigits (n : Nat) : hexValue (Nat.toDigits 16 n) = n := by
  induction n using Nat.strongRecOn with
  | ind n ih =>
    rw [Nat.toDigits_eq_if (by decide)]
    split
    · next hn => simp [hexValue, hexDigitValue_digitChar n hn]
    · next hn =>
      have hrec := ih (n / 16) (by omega)
      have hlast := hexDigitValue_digitChar (n % 16) (Nat.mod_lt n (by decide))
      rw [hexValue] at hrec
      rw [hexValue, List.foldl_append, hrec, List.foldl_cons, List.foldl_nil, hlast]
      exact Nat.div_add_mod n 16

theorem forall_mem_hexDigits {P : Char → Prop} (hP : ∀ d < 16, P d.digitChar) (n : Nat) :
    ∀ c ∈ Nat.toDigits 16 n, P c := by
  induction n using Nat.strongRecOn with
  | ind n ih =>
    rw [Nat.toDigits_eq_if (by decide)]
    split
    · next hn => exact List.forall_mem_singleton.2 (hP n hn)
    · next hn =>
      have hlast : P (n % 16).digitChar := hP _ (Nat.mod_lt n (by decide))
      exact List.forall_mem_append.2 ⟨ih (n / 16) (by omega), List.forall_mem_singleton.2 hlast⟩

theorem brace_not_mem_hexDigits (n : Nat) : '\x7d' ∉ Nat.toDigits 16 n :=
  fun h => @forall_mem_hexDigits (· ≠ '\x7d') (by decide) n _ h rfl

/-! Escaped characters. -/

/-- What a letter behind a backslash stands for. -/
def unescaped (c : Char) : Char :=
  if c = '0' then '\x00'
  else if c = 't' then '\t'
  else if c = 'n' then '\n'
  else if c = 'r' then '\r'
  else c

/-- The forms that a character between double quotes can have. -/
inductive Escaped (c : Char) : List Char → Prop
  | letter {d : Char} : unescaped d = c → d ≠ 'u' → d ≠ '\n' → Escaped c ['\\', d]
  | plain : c ≠ '\\' → c ≠ '"' → c ≠ '\n' → Escaped c [c]
  | hex : Escaped c (codePoint c)

theorem escaped_escape (c : Char) : Escaped c (escape '"' c) := by
  unfold escape
  split
  · next h => exact .letter h.symm (by decide) (by decide)
  split
  · next h => exact .letter h.symm (by decide) (by decide)
  split
  · next h => exact .letter h.symm (by decide) (by decide)
  next hnewline =>
  split
  · next h => exact .letter h.symm (by decide) (by decide)
  split
  · next h => rcases h with rfl | rfl <;> exact .letter rfl (by decide) (by decide)
  next hother =>
  split
  · exact .plain (not_or.1 hother).1 (not_or.1 hother).2 hnewline
  · exact .hex

/-- The character whose escaped form a text starts with, and the rest of the text. -/
def unescape? : List Char → Option (Char × List Char)
  | [] => none
  | c :: cs =>
    if c ≠ '\\' then some (c, cs)
    else
      match cs with
      | [] => none
      | d :: ds =>
        if d ≠ 'u' then some (unescaped d, ds)
        else
          let digits := ds.tail.takeWhile (· ≠ '\x7d')
          let rest := ds.tail.dropWhile (· ≠ '\x7d')
          some (Char.ofNat (hexValue digits), rest.tail)

section

variable {c : Char} {text : List Char}

theorem Escaped.unescape? (h : Escaped c text) (rest : List Char) :
    unescape? (text ++ rest) = some (c, rest) := by
  cases h with
  | letter hd hu => simp [Text.unescape?, hu, hd]
  | plain hslash => simp [Text.unescape?, hslash]
  | hex =>
    have hdigits := brace_not_mem_hexDigits c.toNat
    have htext : codePoint c ++ rest =
        '\\' :: 'u' :: '\x7b' :: (Nat.toDigits 16 c.toNat ++ '\x7d' :: rest) := by
      simp [codePoint]
    rw [htext]
    simp only [Text.unescape?, ne_eq, not_true_eq_false, if_false, List.tail_cons]
    rw [takeWhile_ne hdigits, dropWhile_ne hdigits, hexValue_toDigits, Char.ofNat_toNat,
      List.tail_cons]

theorem Escaped.head?_ne_quote (h : Escaped c text) (rest : List Char) :
    (text ++ rest).head? ≠ some '"' := by
  cases h with
  | plain _ hquote => simp [hquote]
  | _ => simp [codePoint]

theorem Escaped.newline_not_mem (h : Escaped c text) : '\n' ∉ text := by
  cases h with
  | letter _ _ hd => simpa using hd.symm
  | plain _ _ hc => simpa using hc.symm
  | hex =>
    have hdigits : '\n' ∉ Nat.toDigits 16 c.toNat :=
      fun h => @forall_mem_hexDigits (· ≠ '\n') (by decide) _ _ h rfl
    simpa [codePoint] using hdigits

end

/-! Quoted strings. -/

theorem flatMap_escape_injective {cs cs' rest rest' : List Char}
    (h : cs.flatMap (escape '"') ++ '"' :: rest = cs'.flatMap (escape '"') ++ '"' :: rest') :
    cs = cs' ∧ rest = rest' := by
  induction cs generalizing cs' with
  | nil =>
    cases cs' with
    | nil => exact ⟨rfl, (List.cons.inj h).2⟩
    | cons c' cs' =>
      -- one text has ended, and no escaped character starts with the quote
      rw [List.flatMap_cons, List.append_assoc] at h
      exact absurd (congrArg List.head? h).symm ((escaped_escape c').head?_ne_quote _)
  | cons c cs ih =>
    rw [List.flatMap_cons, List.append_assoc] at h
    cases cs' with
    | nil => exact absurd (congrArg List.head? h) ((escaped_escape c).head?_ne_quote _)
    | cons c' cs' =>
      rw [List.flatMap_cons, List.append_assoc] at h
      have hread := congrArg unescape? h
      rw [(escaped_escape c).unescape?, (escaped_escape c').unescape?, Option.some.injEq,
        Prod.mk.injEq] at hread
      obtain ⟨rfl, hlater⟩ := hread
      obtain ⟨rfl, hrest⟩ := ih hlater
      exact ⟨rfl, hrest⟩

theorem toList_quoted (s : String) :
    (quoted s).toList = '"' :: (s.toList.flatMap (escape '"') ++ ['"']) := by
  rw [quoted, String.toList_ofList, List.cons_append]

/-- What is quoted at the start of a text, and what comes behind it, are known. -/
theorem quoted_append_injective {s s' : String} {rest rest' : List Char}
    (h : (quoted s).toList ++ rest = (quoted s').toList ++ rest') : s = s' ∧ rest = rest' := by
  rw [toList_quoted, toList_quoted] at h
  simp only [List.cons_append, List.append_assoc, List.nil_append, List.cons.injEq, true_and] at h
  obtain ⟨hs, hrest⟩ := flatMap_escape_injective h
  exact ⟨String.toList_inj.1 hs, hrest⟩

theorem newline_not_mem_quoted (s : String) : '\n' ∉ (quoted s).toList := by
  rw [toList_quoted]
  simp only [List.mem_cons, List.mem_append, List.mem_flatMap, List.not_mem_nil, or_false, not_or]
  refine ⟨by decide, ?_, by decide⟩
  rintro ⟨c, -, hc⟩
  exact (escaped_escape c).newline_not_mem hc

end LetLang.Text
