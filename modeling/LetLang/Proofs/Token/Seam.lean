import LetLang.Proofs.Text.Seam
import LetLang.Proofs.Token.Scan

/-!
Where a text of the language can be continued. Only a few characters can stand in a word after a
start that is a word already; in front of any other, of a blank or of a semicolon, the words before
stay as they are. So words can be written one after the other with blanks between them.
-/

namespace LetLang.Lexer

open Text (byteLength isDigit_of_mem)

/-- The characters that can prolong a word. -/
def prolongs (c : Char) : Bool := isNameChar c || c = '.' || c = '='

theorem isNameChar_of_isDigit {c : Char} (h : c.isDigit = true) : isNameChar c := by
  simp [isNameChar, Char.isAlphanum, h]

theorem prolongs_of_isWord {k k' : TokenKind} {text more : List Char} (h : IsWord k text)
    (h' : IsWord k' (text ++ more)) : ∀ c ∈ more, prolongs c := by
  intro c hc
  obtain ⟨d, ds, rfl, hd⟩ := h.startsWord
  simp only [startsWord, Bool.or_eq_true, decide_eq_true_eq] at hd
  rcases hd with ((rfl | hd) | hd) | hd
  · -- a string ends at its first quote
    obtain ⟨-, inner, rfl, hin⟩ := isWord_of_quote h
    obtain rfl := (longest_string more hin).2 k' more [] (by simp) h'
    cases hc
  · rcases isWord_of_isDigit hd h' with ⟨-, hall⟩ | ⟨-, whole, fraction, he, hw, hf⟩
    · have hmem : c ∈ d :: ds ++ more := List.mem_append_right _ hc
      simp [prolongs, isNameChar_of_isDigit (isDigit_of_mem hall hmem)]
    · have hmem : c ∈ whole ++ '.' :: fraction := he ▸ by simp [hc]
      rcases List.mem_append.1 hmem with hm | hm
      · simp [prolongs, isNameChar_of_isDigit (isDigit_of_mem hw hm)]
      · rcases List.mem_cons.1 hm with rfl | hm
        · decide
        · simp [prolongs, isNameChar_of_isDigit (isDigit_of_mem hf hm)]
  · obtain ⟨-, hall⟩ := isWord_of_isNameStart hd h'
    simp [prolongs, hall c (by simp [hc])]
  · -- the longer marks go on with an equals sign
    obtain ⟨m, rfl, hm⟩ := isWord_of_mark hd h'
    have hmem : c ∈ m.spelling.tail := by
      rw [hm]
      exact List.mem_append_right ds hc
    cases m <;> simp [Mark.spelling] at hmem <;> simp [prolongs, hmem]

theorem shut_of_head {c : Char} {cs : List Char} (h : prolongs c = false) :
    lexicon.Shut (c :: cs) := by
  rintro d ⟨⟩ k k' text more rest hw hlong
  rw [List.append_assoc] at hlong
  have := prolongs_of_isWord hw hlong c (by simp)
  rw [h] at this
  cases this

theorem prolongs_of_isBlank {c : Char} (h : isBlank c) : prolongs c = false := by
  simp only [isBlank, Bool.or_eq_true, decide_eq_true_eq] at h
  rcases h with ((rfl | rfl) | rfl) | rfl <;> decide

theorem shut_of_blank {c : Char} {cs : List Char} (h : isBlank c) : lexicon.Shut (c :: cs) :=
  shut_of_head (prolongs_of_isBlank h)

/-- Words with a blank before each of them. -/
def spaced (ws : List (Text.Word TokenKind)) : List Char := ws.flatMap fun w => ' ' :: w.text

theorem shut_spaced (ws : List (Text.Word TokenKind)) : lexicon.Shut (spaced ws) := by
  cases ws with
  | nil => exact Text.Lexicon.shut_nil
  | cons w ws => exact shut_of_blank (by decide)

theorem says_spaced {ws : List (Text.Word TokenKind)} (h : ∀ w ∈ ws, IsWord w.kind w.text) :
    lexicon.Says (spaced ws) ws := by
  induction ws with
  | nil => exact .nil
  | cons w ws ih =>
    obtain ⟨hw, hws⟩ := List.forall_mem_cons.1 h
    refine .blank (by decide) ?_
    exact .word (Text.Lexicon.longest_of_shut hw (shut_spaced ws)) (ih hws)

/-- A text up to the start of one of its words, or up to its end, continued with other words. -/
theorem exists_cut_of_start {cs : List Char} {ps qs : List (Text.Piece TokenKind)}
    {ws : List (Text.Word TokenKind)} (h : lexicon.Cut 0 cs (ps ++ qs))
    (hws : ∀ w ∈ ws, IsWord w.kind w.text) :
    ∃ before after rs, cs = before ++ after ∧
      byteLength before = (qs.head?.map (·.offset)).getD (byteLength cs) ∧
      lexicon.Cut 0 (before ++ spaced ws) (ps ++ rs) ∧ rs.map (·.word) = ws := by
  obtain ⟨start, rest, rfl, hrest, -, -, hgo⟩ := h.split
  have hgap : ∃ gap after, rest = gap ++ after ∧ (∀ c ∈ gap, isBlank c = true) ∧
      byteLength (start ++ gap) =
        (qs.head?.map (·.offset)).getD (byteLength (start ++ rest)) := by
    cases qs with
    | nil => exact ⟨rest, [], by simp, hrest.blank_of_nil, rfl⟩
    | cons q qs =>
      obtain ⟨gap, after, rfl, hgap, ho⟩ := hrest.uncons
      exact ⟨gap, _, rfl, hgap, by simp [ho]⟩
  obtain ⟨gap, after, rfl, hblank, hlen⟩ := hgap
  obtain ⟨rs, hrs, hwords⟩ :=
    says_spaced hws (0 + byteLength start + byteLength gap)
  refine ⟨start ++ gap, after, rs, by simp, hlen, ?_, hwords⟩
  rw [List.append_assoc]
  refine hgo _ rs ?_ (.blanks hblank hrs)
  cases gap with
  | nil => exact shut_spaced ws
  | cons c gap => exact shut_of_blank (hblank c (by simp))

end LetLang.Lexer
