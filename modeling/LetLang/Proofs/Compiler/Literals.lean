import LetLang.Proofs.Compiler.Results
import LetLang.Proofs.Java.Fragments
import LetLang.Proofs.Tree.Parsing
import LetLang.Proofs.Typing.Checking
import Mathlib.Data.List.Forall2

/-! Literals from the source to the class. The literal tokens of a source are the literals of its
program, one by one, and what the rule says of a token's word is what its check and the generator do
with it. So the literals in the class are those of the source in their order, each with its value,
and a literal that is reported is one that the rule refuses. -/

namespace LetLang

open Rules
open Text (Piece)
open Lexer (tokenOf lexemeOf eofAt)

def Token.isLiteral (source : List Char) (t : Token) : Bool :=
  (t.word? source).any Word.isLiteral

def literalTokens (source : List Char) (tokens : List Token) : List Token :=
  tokens.filter (Token.isLiteral source)

/-- The token and the literal have one place, and the word of the token comes to just this. -/
structure RendersAt (source : List Char) (t : Token)
    (l : Located (Except LiteralError (List Char))) : Prop where
  span : t.span = l.span
  word : ∃ w, t.word? source = some w ∧ ∀ r, Renders w r ↔ l.value = r

section

variable {source : List Char} {ps qs : List (Piece TokenKind)}

theorem isLiteral_tokenOf {p : Piece TokenKind} (hcut : Lexer.lexicon.Cut 0 source ps)
    (hp : p ∈ ps) :
    (tokenOf p).isLiteral source = (Parser.literal? (.ofWord p.word)).isSome := by
  rw [Token.isLiteral, Lexer.word?_tokenOf hcut hp, Option.any_some,
    isSome_literal?_ofWord (hcut.isWord p hp)]

theorem rendersAt_of_piece {p : Piece TokenKind} {raw : RawLiteral}
    (hcut : Lexer.lexicon.Cut 0 source ps) (hp : p ∈ ps)
    (hraw : Parser.literal? (.ofWord p.word) = some raw) :
    RendersAt source (tokenOf p) ⟨(lexemeOf p).span, raw.rendered⟩ where
  span := rfl
  word := ⟨p.word, Lexer.word?_tokenOf hcut hp, fun _ => renders_iff (hcut.isWord p hp) hraw⟩

/-- The literals among the lexemes are those of the literal tokens. -/
theorem rendersAt_of_pieces (hcut : Lexer.lexicon.Cut 0 source ps) (hqs : ∀ q ∈ qs, q ∈ ps) :
    List.Forall₂ (RendersAt source) (literalTokens source (qs.map tokenOf))
      (((qs.map lexemeOf).filterMap Lexeme.literal?).map (Located.map RawLiteral.rendered)) := by
  induction qs with
  | nil => exact .nil
  | cons q qs ih =>
    obtain ⟨hq, hrest⟩ := List.forall_mem_cons.1 hqs
    have hliteral := isLiteral_tokenOf hcut hq
    rw [literalTokens, List.map_cons, List.map_cons]
    cases hraw : Parser.literal? (.ofWord q.word) with
    | none =>
      rw [hraw, Option.isSome_none] at hliteral
      rw [List.filter_cons_of_neg (by simp [hliteral]), Lexeme.filterMap_cons_none hraw]
      exact ih hrest
    | some raw =>
      rw [hraw, Option.isSome_some] at hliteral
      rw [List.filter_cons_of_pos hliteral, List.filterMap_cons, Lexeme.literal?, lexemeOf, hraw]
      exact .cons (rendersAt_of_piece hcut hq hraw) (ih hrest)

theorem literalTokens_append (source : List Char) (ts us : List Token) :
    literalTokens source (ts ++ us) = literalTokens source ts ++ literalTokens source us :=
  List.filter_append ..

/-- The end of a source is no literal. -/
theorem literalTokens_eofAt (source : List Char) :
    literalTokens source [eofAt (Text.byteLength source)] = [] := by
  rw [literalTokens, List.filter_singleton, Token.isLiteral, Lexer.word?_eofAt]
  rfl

end

/-- What is parsed has the literals of the tokens. -/
theorem rendersAt_of_parse {source : String} {tokens : List Token} {tree : Block .parsed}
    (hlex : Lexer.lex source = ⟨tokens, none⟩) (hparse : parse source tokens = .ok tree) :
    List.Forall₂ (RendersAt source.toList) (literalTokens source.toList tokens)
      ((Stmt.literalsAll tree).map (Located.map RawLiteral.rendered)) := by
  obtain ⟨ps, hcut, rfl, htree⟩ := exists_cut_of_parse hlex hparse
  rw [literalTokens_append, literalTokens_eofAt, List.append_nil, ← htree.literals_eq]
  exact rendersAt_of_pieces hcut fun _ => id

/-- Literals that pass their checks are written as they were checked. -/
theorem rendered_of_checked {ls : List (Located RawLiteral)} {ls' : List (Located Literal)}
    (h : Checked ls ls') : ls.map (Located.map RawLiteral.rendered) =
      ls'.map (Located.map fun l => .ok (Java.literal l).toList) := by
  have := congrArg (List.map (Located.map (Except.map fun l => (Java.literal l).toList))) h
  rwa [List.map_map, List.map_map] at this

/-- The word of the token is written like this literal, which has the place of the token. -/
def KeptAt (source : List Char) (t : Token) (l : Located Literal) : Prop :=
  t.span = l.span ∧ ∃ w, t.word? source = some w ∧ Renders w (.ok (Java.literal l.value).toList)

theorem RendersAt.keptAt {source : List Char} {t : Token} {l : Located Literal}
    (h : RendersAt source t (l.map fun l => .ok (Java.literal l).toList)) : KeptAt source t l := by
  obtain ⟨w, hw, hr⟩ := h.word
  exact ⟨h.span, w, hw, (hr _).2 rfl⟩

/-- A literal of the program is that of some token. -/
theorem exists_token_of_refuses {source : String} {tokens : List Token} {tree : Block .parsed}
    {span : Span} {e : LiteralError} (hlex : Lexer.lex source = ⟨tokens, none⟩)
    (hparse : parse source tokens = .ok tree)
    (h : Typing.Refuses span e (Stmt.literalsAll tree)) :
    ∃ t ∈ literalTokens source.toList tokens, t.span = span ∧
      ∃ w, t.word? source.toList = some w ∧ Renders w (.error e) := by
  obtain ⟨l, hl, hspan, hcheck⟩ := h
  obtain ⟨hlength, hget⟩ := List.forall₂_iff_get.1 (rendersAt_of_parse hlex hparse)
  obtain ⟨⟨i, hi⟩, hli⟩ := List.mem_iff_get.1 (List.mem_map_of_mem hl)
  have hrenders := hget i (hlength ▸ hi) hi
  rw [hli] at hrenders
  obtain ⟨w, hw, hr⟩ := hrenders.word
  refine ⟨_, List.get_mem _ _, hrenders.span.trans hspan, w, hw, ?_⟩
  exact (hr _).2 (RawLiteral.rendered_eq_error hcheck)

/-- What becomes of the literal tokens of a source with this program. -/
structure LiteralsKept (source : String) (tokens : List Token) (tree : Block .parsed) : Prop where
  checked : List.Forall₂ (RendersAt source.toList) (literalTokens source.toList tokens)
    ((Stmt.literalsAll tree).map (Located.map RawLiteral.rendered))
  written : ∀ catalog options text, Compiler.compile catalog options source = .ok text →
    ∃ program, Compiler.typedTree catalog source = .ok program ∧
      text.toList = (Java.rows catalog options.className program).flatMap
        (fun r => Java.laidOut options.indent r.line) ∧
      List.Forall₂ (KeptAt source.toList) (literalTokens source.toList tokens)
        ((Java.rows catalog options.className program).flatMap Java.Row.literals)
  reported : ∀ catalog options span e,
    Compiler.compile catalog options source = .error (.error (.typing ⟨span, .literal e⟩)) →
    ∃ t ∈ literalTokens source.toList tokens, t.span = span ∧
      ∃ w, t.word? source.toList = some w ∧ Renders w (.error e)

/-- Every source that is lexed and parsed. The rule says of each literal token what its check and
the generator do; the literals of a class are those of the tokens, one by one, as the rule says, and
the rest of the class is written around them; and a literal that is reported is that of a token, as
the rule says. -/
theorem literalsKept_of_parse (source : String) (tokens : List Token) (tree : Block .parsed)
    (hlex : Lexer.lex source = ⟨tokens, none⟩) (hparse : parse source tokens = .ok tree) :
    LiteralsKept source tokens tree := by
  have hrenders := rendersAt_of_parse hlex hparse
  have htree : Compiler.tree source = .ok tree := by
    rw [Compiler.tree_of_lex hlex]
    exact Result.mapError_eq_ok_iff.2 hparse
  refine ⟨hrenders, ?_, ?_⟩
  · intro catalog options text h
    obtain ⟨program, htyped, hg⟩ := Compiler.compile_eq_ok h
    obtain ⟨tree', htree', hprogram⟩ := Compiler.typedTree_eq_ok htyped
    obtain rfl := Except.ok.inj (htree.symm.trans htree')
    have hrules := (Typing.block_gives_iff .root tree).1 ⟨Typing.block_of_program hprogram, rfl⟩
    refine ⟨program, htyped, ?_, ?_⟩
    · rw [Java.laidOut_of_layout? hg, ← Java.line_rows, List.flatMap_map]
    · rw [rendered_of_checked hrules.checked, List.forall₂_map_right_iff] at hrenders
      rw [Java.literals_rows]
      exact hrenders.imp fun _ _ => RendersAt.keptAt
  · intro catalog options span e h
    apply exists_token_of_refuses hlex hparse
    rcases Compiler.compile_eq_error_iff.1 h with h | ⟨h, -⟩
    · rcases Compiler.typedTree_eq_error h with h | ⟨tree', err, htree', hprogram, herr⟩
      · cases htree.symm.trans h
      · obtain rfl := Except.ok.inj (htree.symm.trans htree')
        cases herr
        exact Typing.refuses_of_program hprogram
    · cases h

theorem literalsKept_of_padded_numbers :
    ∃ tokens tree text,
      Lexer.lex "LET d: DECIMAL = 00.50; IF TRUE THEN print(007); print(\"a.b\"); END" =
        ⟨tokens, none⟩ ∧
      parse "LET d: DECIMAL = 00.50; IF TRUE THEN print(007); print(\"a.b\"); END" tokens =
        .ok tree ∧
      Compiler.compile .standard ⟨"Main", 1⟩
        "LET d: DECIMAL = 00.50; IF TRUE THEN print(007); print(\"a.b\"); END" = .ok text ∧
      LiteralsKept "LET d: DECIMAL = 00.50; IF TRUE THEN print(007); print(\"a.b\"); END"
        tokens tree := by
  have hcompile : Compiler.compile .standard ⟨"Main", 1⟩
      "LET d: DECIMAL = 00.50; IF TRUE THEN print(007); print(\"a.b\"); END" = .ok
        ("public final class Main \x7b\n\n public static void main(String[] args) \x7b\n" ++
          "  double d = 0.50;\n  if (true) \x7b\n   System.out.println(7);\n" ++
          "   System.out.println(\"a.b\");\n  \x7d\n \x7d\n\n\x7d\n") :=
    Except.toOption_eq_some_iff.1 (by decide +kernel)
  obtain ⟨program, htyped, -⟩ := Compiler.compile_eq_ok hcompile
  obtain ⟨tree, htree, -⟩ := Compiler.typedTree_eq_ok htyped
  obtain ⟨tokens, hlex, hparse⟩ := Compiler.tree_eq_ok htree
  exact ⟨tokens, tree, _, hlex, hparse, hcompile, literalsKept_of_parse _ _ _ hlex hparse⟩

end LetLang
