import LetLang.Proofs.Token.Lexemes

/-!
Words written out as a text, with blanks around them and something between any two. Lexing such a
text gives the words back, each where it was written. So the words of a source can be written anew
with a space between them, and are the same words.
-/

namespace LetLang.Lexer

open Text (Piece byteLength byteLength_append)

/-- A word, and what is written behind it. -/
structure Written where
  word : Word
  gap : List Char

namespace Written

def text : List Written → List Char
  | [] => []
  | w :: ws => w.word.text ++ (w.gap ++ text ws)

/-- Where the words stand if the first one starts at an offset. -/
def pieces (offset : Nat) : List Written → List (Piece TokenKind)
  | [] => []
  | w :: ws => ⟨offset, w.word⟩ :: pieces (offset + byteLength (w.word.text ++ w.gap)) ws

/-- Words with only blanks behind them, and at least one between two words. -/
structure Spaced (ws : List Written) : Prop where
  word : ∀ w ∈ ws, IsWord w.word.kind w.word.text
  blank : ∀ w ∈ ws, ∀ c ∈ w.gap, isBlank c
  apart : ∀ w ∈ ws.dropLast, w.gap ≠ []

theorem word_pieces (offset : Nat) (ws : List Written) :
    (pieces offset ws).map (·.word) = ws.map (·.word) := by
  induction ws generalizing offset with
  | nil => rfl
  | cons w ws ih => rw [pieces, List.map_cons, List.map_cons, ih]

theorem Spaced.tail {w : Written} {ws : List Written} (h : Spaced (w :: ws)) : Spaced ws where
  word v hv := h.word v (List.mem_cons_of_mem _ hv)
  blank v hv := h.blank v (List.mem_cons_of_mem _ hv)
  apart v hv := by
    cases ws with
    | nil => cases hv
    | cons u us => exact h.apart v (List.mem_cons_of_mem _ hv)

/-- What stands behind a word shuts it off. -/
theorem Spaced.shut {w : Written} {ws : List Written} (h : Spaced (w :: ws)) :
    lexicon.Shut (w.gap ++ text ws) := by
  cases hgap : w.gap with
  | cons c gap =>
    apply shut_of_blank
    apply h.blank w List.mem_cons_self
    rw [hgap]
    exact List.mem_cons_self
  | nil =>
    -- only the last word may have nothing behind it
    cases ws with
    | nil => exact Text.Lexicon.shut_nil
    | cons v vs => exact absurd hgap (h.apart w List.mem_cons_self)

theorem Spaced.cut {ws : List Written} (h : Spaced ws) (offset : Nat) :
    lexicon.Cut offset (text ws) (pieces offset ws) := by
  induction ws generalizing offset with
  | nil => exact .nil
  | cons w ws ih =>
    have hlong : lexicon.Longest w.word.kind w.word.text (w.gap ++ text ws) :=
      Text.Lexicon.longest_of_shut (h.word w List.mem_cons_self) h.shut
    have hrest := ih h.tail (offset + byteLength (w.word.text ++ w.gap))
    rw [byteLength_append, ← Nat.add_assoc] at hrest
    have hcut := Text.Lexicon.Cut.word hlong (.blanks (h.blank w List.mem_cons_self) hrest)
    rwa [Nat.add_assoc, ← byteLength_append] at hcut

/-- These words with one space between any two of them. -/
def single : List Word → List Written
  | [] => []
  | [w] => [⟨w, []⟩]
  | w :: v :: ws => ⟨w, [' ']⟩ :: single (v :: ws)

theorem word_single (words : List Word) : (single words).map (·.word) = words := by
  induction words with
  | nil => rfl
  | cons w ws ih =>
    cases ws with
    | nil => rfl
    | cons v vs => rw [single, List.map_cons, ih]

theorem text_single (words : List Word) :
    text (single words) = [' '].intercalate (words.map (·.text)) := by
  induction words with
  | nil => rfl
  | cons w ws ih =>
    cases ws with
    | nil => simp [single, text]
    | cons v vs => simp [single, text, ih]

theorem spaced_single {words : List Word} (h : ∀ w ∈ words, IsWord w.kind w.text) :
    Spaced (single words) where
  word w hw := by
    apply h
    rw [← word_single words]
    exact List.mem_map_of_mem hw
  blank := by
    induction words with
    | nil => simp [single]
    | cons w ws ih =>
      cases ws with
      | nil => simp [single]
      | cons v vs =>
        have hspace : ∀ c ∈ [' '], isBlank c := by simp [isBlank]
        exact List.forall_mem_cons.2 ⟨hspace, ih fun u hu => h u (List.mem_cons_of_mem _ hu)⟩
  apart := by
    induction words with
    | nil => simp [single]
    | cons w ws ih =>
      cases ws with
      | nil => simp [single]
      | cons v vs =>
        have hne : single (v :: vs) ≠ [] := by cases vs <;> simp [single]
        rw [single, List.dropLast_cons_of_ne_nil hne]
        have htail := ih fun u hu => h u (List.mem_cons_of_mem _ hu)
        exact List.forall_mem_cons.2 ⟨List.cons_ne_nil _ _, htail⟩

end Written

/-- The tokens have the kinds and texts of these words, and the last one is the end. -/
def Tell (source : List Char) (tokens : List Token) (words : List Word) : Prop :=
  tokens.map (Token.word? source) = (words ++ [(⟨.eof, []⟩ : Word)]).map some

open Written

/-- Each word where it is written, and the end behind the last one. -/
def tokensOf (first : List Char) (ws : List Written) : List Token :=
  (pieces (byteLength first) ws).map tokenOf ++ [eofAt (byteLength (first ++ text ws))]

theorem lex_of_spaced {first : List Char} {ws : List Written} (hfirst : ∀ c ∈ first, isBlank c)
    (hws : Spaced ws) (hlen : byteLength (first ++ text ws) ≤ Span.maxLength) :
    lex (String.ofList (first ++ text ws)) = ⟨tokensOf first ws, none⟩ ∧
      Tell (first ++ text ws) (tokensOf first ws) (ws.map (·.word)) := by
  have hcut : lexicon.Cut 0 (first ++ text ws) (pieces (byteLength first) ws) := by
    apply Text.Lexicon.Cut.blanks hfirst
    rw [Nat.zero_add]
    exact hws.cut _
  constructor
  · have hlex := @lex_of_cut (String.ofList (first ++ text ws)) _ (by simpa using hlen)
      (by simpa using hcut)
    simpa [tokensOf] using hlex
  · rw [← word_pieces (byteLength first) ws]
    exact words_of_cut hcut

/-- Every list of words and all blanks around them: their text is lexed as these words, each where
it is written, and then the end. The words of any source are those of a text with single spaces
between them. -/
theorem lex_written :
    (∀ (first : List Char) (ws : List Written), (∀ c ∈ first, isBlank c) → Spaced ws →
      byteLength (first ++ text ws) ≤ Span.maxLength →
      lex (String.ofList (first ++ text ws)) = ⟨tokensOf first ws, none⟩ ∧
        Tell (first ++ text ws) (tokensOf first ws) (ws.map (·.word))) ∧
    ∀ (source : String) (tokens : List Token), lex source = ⟨tokens, none⟩ →
      ∃ words : List Word, Tell source.toList tokens words ∧
        (byteLength ([' '].intercalate (words.map (·.text))) ≤ Span.maxLength →
          ∃ tokens', lex (String.ofList ([' '].intercalate (words.map (·.text)))) =
              ⟨tokens', none⟩ ∧
            Tell ([' '].intercalate (words.map (·.text))) tokens' words) := by
  refine ⟨fun first ws => lex_of_spaced, ?_⟩
  intro source tokens hlex
  obtain ⟨ps, hcut, rfl, -⟩ := exists_cut_of_lex hlex
  refine ⟨ps.map Piece.word, words_of_cut hcut, fun hlen => ?_⟩
  have hwords : ∀ w ∈ ps.map Piece.word, IsWord w.kind w.text := by
    intro w hw
    obtain ⟨p, hp, rfl⟩ := List.mem_map.1 hw
    exact hcut.isWord p hp
  rw [← text_single] at hlen ⊢
  obtain ⟨hlex', htell⟩ := @lex_of_spaced [] _ nofun (spaced_single hwords) hlen
  rw [word_single] at htell
  exact ⟨_, hlex', htell⟩

theorem lex_written_of_string_and_marks :
    (∃ ws : List Written,
      (∀ c ∈ ['\n'], isBlank c) ∧ Spaced ws ∧
        byteLength (['\n'] ++ text ws) ≤ Span.maxLength ∧
        ['\n'] ++ text ws = "\n= ==\t! 1.5 \"é = 1\"".toList ∧
        lex (String.ofList (['\n'] ++ text ws)) = ⟨tokensOf ['\n'] ws, none⟩ ∧
        Tell (['\n'] ++ text ws) (tokensOf ['\n'] ws) (ws.map (·.word))) ∧
      ∃ tokens, lex "a!=1.5;" = ⟨tokens, none⟩ ∧
        ∃ words : List Word, Tell "a!=1.5;".toList tokens words ∧
          byteLength ([' '].intercalate (words.map (·.text))) ≤ Span.maxLength ∧
          ∃ tokens', lex (String.ofList ([' '].intercalate (words.map (·.text)))) =
              ⟨tokens', none⟩ ∧
            Tell ([' '].intercalate (words.map (·.text))) tokens' words := by
  constructor
  · have hstring : IsWord .string ('"' :: ['é', ' ', '=', ' ', '1'] ++ ['"']) :=
      .string (by decide)
    have hdecimal : IsWord .decimal (['1'] ++ '.' :: ['5']) := .decimal rfl rfl
    have hspaced : Spaced [⟨⟨.mark .assign, ['=']⟩, [' ']⟩, ⟨⟨.mark .equal, ['=', '=']⟩, ['\t']⟩,
        ⟨⟨.mark .bang, ['!']⟩, [' ']⟩, ⟨⟨.decimal, ['1'] ++ '.' :: ['5']⟩, [' ']⟩,
        ⟨⟨.string, '"' :: ['é', ' ', '=', ' ', '1'] ++ ['"']⟩, []⟩] := by
      refine ⟨?_, by simp [isBlank], by simp⟩
      simp only [List.forall_mem_cons]
      exact ⟨.mark .assign, .mark .equal, .mark .bang, hdecimal, hstring, List.forall_mem_nil _⟩
    have hbreak : ∀ c ∈ ['\n'], isBlank c := by simp [isBlank]
    exact ⟨_, hbreak, hspaced, by decide, by decide, lex_written.1 _ _ hbreak hspaced (by decide)⟩
  · have hlex : lex "a!=1.5;" = ⟨[⟨.identifier, ⟨0, 1⟩⟩, ⟨.mark .notEqual, ⟨1, 2⟩⟩,
        ⟨.decimal, ⟨3, 3⟩⟩, ⟨.mark .semicolon, ⟨6, 1⟩⟩, ⟨.eof, ⟨7, 0⟩⟩], none⟩ := by
      decide +kernel
    obtain ⟨words, htell, hgo⟩ := lex_written.2 _ _ hlex
    have hlen : byteLength ([' '].intercalate (words.map (·.text))) ≤ Span.maxLength := by
      obtain rfl : words = [⟨.identifier, ['a']⟩, ⟨.mark .notEqual, ['!', '=']⟩,
          ⟨.decimal, ['1', '.', '5']⟩, ⟨.mark .semicolon, [';']⟩] := by
        have hall : words ++ [(⟨.eof, []⟩ : Word)] = [⟨.identifier, ['a']⟩,
            ⟨.mark .notEqual, ['!', '=']⟩, ⟨.decimal, ['1', '.', '5']⟩,
            ⟨.mark .semicolon, [';']⟩] ++ [⟨.eof, []⟩] :=
          (List.map_inj_right fun _ _ => Option.some.inj).1 (htell.symm.trans (by decide +kernel))
        exact List.append_cancel_right hall
      decide
    exact ⟨_, hlex, words, htell, hlen, hgo hlen⟩

end LetLang.Lexer
