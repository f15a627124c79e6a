import LetLang.Proofs.Tree.Cursor.Statements
import LetLang.Tree.Outline

/-!
The first `eof` ends what is parsed. The parser with a cursor gives what the readers give, and never
looks at a token behind the first `eof`; where there is none, it is as if one stood at the end of
the source.
-/

namespace LetLang

open Parser (ParseResult Parsed)
open Text (byteLength)

namespace Tape

variable {tape : Tape}

/-- At the top no keyword ends the statements. -/
theorem follows_statements (depth i : Nat) (h : 3 * (tape.rest i).length + 3 < depth) :
    tape.Follows i (tape.statements depth)
      (Parser.block tape.reading.finish [] (tape.rest i)) := by
  obtain ⟨depth, rfl⟩ := Nat.exists_eq_add_one_of_ne_zero (Nat.ne_zero_of_lt h)
  refine .of_le fun hi => ?_
  rw [statements, Parser.block, Parser.startsWithAny_nil, Bool.or_false]
  refine .tick (.isNext ?_)
  rcases Nat.lt_or_eq_of_le hi with hlt | rfl
  · obtain ⟨hcons, hnot⟩ := rest_cons hlt
    rw [decide_eq_false hnot, if_neg Bool.false_ne_true, if_neg (by simp [hcons])]
    refine (follows_stmt depth i (by omega)).bind fun s j _ _ _ => ?_
    exact (follows_statements depth j (by omega)).bind fun ss k _ _ _ => .pure
  · rw [tokenAt_length, decide_eq_true rfl, if_pos rfl, if_pos (by rw [rest_length]; rfl)]
    exact .pure

/-- What is left to say of a block once it is read: a program has at least one statement. -/
def checked (tape : Tape) {n : Nat} (p : Parsed (Block .parsed) n) : ParseResult (Block .parsed) n :=
  if p.value.isEmpty then
    Result.ofOption (Span.ofBounds? 0 (byteLength tape.source)) >>= fun span =>
      Parser.failAt span .emptySource
  else .ok p

theorem follows_program (depth : Nat) (h : 3 * (tape.rest 0).length + 3 < depth) :
    tape.Follows 0 (tape.program depth)
      (Parser.block tape.reading.finish [] (tape.rest 0) >>= tape.checked) := by
  rw [program]
  refine (follows_statements depth 0 h).bind fun ss j _ _ _ => ?_
  unfold checked
  dsimp only
  split
  · exact .give fun span _ => .error
  · exact .pure

theorem parse_eq_map (source : String) (tokens : List Token) :
    let tape : Tape := ⟨source.toList, tokens⟩
    parse source tokens =
      (Parser.block tape.reading.finish [] (tape.rest 0) >>= tape.checked).map Parsed.value := by
  intro tape
  rw [show tape.rest 0 = tape.reading.lexemes from rfl]
  unfold parse
  dsimp only
  rw [show Reading.ofTokens source.toList tokens = tape.reading from rfl]
  generalize tape.reading = reading
  obtain ⟨lexemes, finish⟩ := reading
  cases lexemes with
  | nil =>
    have hread : Parser.block finish [] [] = .ok ⟨[], [], Nat.lt_succ_self _⟩ := by
      rw [Parser.block]
      rfl
    dsimp only
    rw [List.isEmpty_nil, if_pos rfl, hread]
    change _ = Except.map _ (Result.ofOption _ >>= _)
    cases Span.ofBounds? 0 (byteLength source.toList) <;> rfl
  | cons t ts =>
    dsimp only
    rw [List.isEmpty_cons, if_neg Bool.false_ne_true]
    cases hread : Parser.block finish [] (t :: ts) with
    | error f => rfl
    | ok p =>
      -- where there is a lexeme, there is a statement
      obtain ⟨s, -, -, more, -, -, hvalue, -⟩ :=
        (Parser.reads_block_cons (by simp [Parser.startsWithAny_nil])).1 ⟨p.shorter, hread⟩
      change _ = Except.map _ (checked tape p)
      rw [checked, hvalue, List.isEmpty_cons, if_neg Bool.false_ne_true]
      rfl

/-- With a cursor, a program ends in this way: no token behind the given place is looked at, and if
there is a tree, it is read from all tokens before that place. -/
def Ends (tape : Tape) (place : Nat) (r : Result (Located ParseError) (Block .parsed)) : Prop :=
  ∀ depth, 3 * place + 3 < depth → ∃ c : Cursor,
    (tape.program depth).run.run ⟨0, 0, 0⟩ = some (r, c) ∧ c.place ≤ place ∧ c.furthest ≤ place ∧
      ∀ tree, r = .ok tree → c.place = place ∧
        BlockAt ((tape.tokens.take place).map (Token.lexeme tape.source)) tree

end Tape

/-- The parser with a cursor gives what the parser gives, and ends at the first `eof` at the latest. -/
theorem ends_of_parse (source : String) (tokens : List Token) :
    Tape.Ends ⟨source.toList, tokens⟩ (tokens.findIdx Token.isEof) (parse source tokens) := by
  intro depth hdepth
  let tape : Tape := ⟨source.toList, tokens⟩
  obtain ⟨c, hrun, hc, -, hrest⟩ := @Tape.follows_program tape depth
    (by rw [Tape.length_rest]; exact hdepth) ⟨0, 0, 0⟩ ⟨Nat.zero_le _, Nat.zero_le _⟩ rfl
  rw [← Tape.parse_eq_map] at hrun
  refine ⟨c, hrun, hc.place, hc.furthest, fun tree htree => ?_⟩
  obtain ⟨hne, hread⟩ := parse_eq_ok_iff.1 htree
  obtain ⟨us, hus, hblock⟩ := Parser.blockAt_of_reads hread
  rw [List.append_nil] at hus
  have htree : tree.isEmpty = false := by
    rw [List.isEmpty_eq_false_iff, Ne, ← hblock.nil_iff, ← hus]
    exact hne
  obtain ⟨hshort, hread⟩ := hread
  have hend : tape.rest c.place = [] := by
    refine (hrest ⟨tree, [], hshort⟩ ?_).symm
    rw [show Parser.block tape.reading.finish [] (tape.rest 0) = _ from hread]
    exact (if_neg (by simp [htree]) : tape.checked ⟨tree, [], hshort⟩ = _)
  have hplace := tape.length_rest c.place
  rw [hend, List.length_nil] at hplace
  refine ⟨Nat.le_antisymm hc.place (Nat.le_of_sub_eq_zero hplace.symm), ?_⟩
  rw [← hus, show (Reading.ofTokens source.toList tokens).lexemes = _ from tape.lexemes_eq] at hblock
  exact hblock

/-- Every source, every list of tokens without an `eof`, in any order and whether they fit the source
or not, and all that may stand behind an `eof` at the end of the source: the result is the same with
the `eof` and without it. No token behind that place is looked at, and a tree is read from all
tokens before it. -/
theorem parse_append_eof (source : String) (pre after : List Token)
    (h : ∀ t ∈ pre, t.kind ≠ .eof) :
    let ended := pre ++ ⟨.eof, ⟨byteLength source.toList, 0⟩⟩ :: after
    parse source ended = parse source pre ∧
      Tape.Ends ⟨source.toList, pre⟩ pre.length (parse source pre) ∧
      Tape.Ends ⟨source.toList, ended⟩ pre.length (parse source pre) := by
  intro ended
  have hnot : ∀ t ∈ pre, t.isEof = false := fun t ht => decide_eq_false (h t ht)
  have hreading : Reading.ofTokens source.toList ended = Reading.ofTokens source.toList pre := by
    have hcut (ts : List Token) : (pre ++ ts).takeWhile (!Token.isEof ·) =
        pre ++ ts.takeWhile (!Token.isEof ·) :=
      List.takeWhile_append_of_pos fun t ht => by simp [hnot t ht]
    have hnone : pre.find? Token.isEof = none := List.find?_eq_none.2 fun t ht => by simp [hnot t ht]
    have hpre := hcut []
    rw [List.append_nil, List.takeWhile_nil, List.append_nil] at hpre
    rw [Reading.ofTokens, Reading.ofTokens, hcut, hpre, List.find?_append, hnone]
    simp [Token.isEof]
  have hplace : pre.findIdx Token.isEof = pre.length := List.findIdx_eq_length.2 hnot
  have hplace' : ended.findIdx Token.isEof = pre.length := by
    rw [List.findIdx_append, hplace, if_neg (Nat.lt_irrefl _)]
    simp [List.findIdx_cons, Token.isEof]
  have hparse : parse source ended = parse source pre := by
    rw [parse, parse]
    dsimp only
    rw [hreading]
  have hpre := ends_of_parse source pre
  have hended := ends_of_parse source ended
  rw [hplace] at hpre
  rw [hplace', hparse] at hended
  exact ⟨hparse, hpre, hended⟩

/-- A token that does not fit the source stands behind the `eof`. -/
theorem parse_append_eof_of_statement :
    let ended : List Token := [⟨.identifier, ⟨0, 1⟩⟩, ⟨.mark .semicolon, ⟨1, 1⟩⟩, ⟨.eof, ⟨2, 0⟩⟩,
      ⟨.string, ⟨9, 9⟩⟩]
    ∃ tree, parse "x;" ended = .ok tree ∧
      Block.outline? tree = some "expression\n  variable x (0..1)\n" ∧
      Tape.Ends ⟨"x;".toList, ended⟩ 2 (.ok tree) := by
  intro ended
  obtain ⟨hparse, -, hends⟩ := parse_append_eof "x;"
    [⟨.identifier, ⟨0, 1⟩⟩, ⟨.mark .semicolon, ⟨1, 1⟩⟩] [⟨.string, ⟨9, 9⟩⟩] (by decide)
  have houtline : (match parse "x;" ended with
      | .ok tree => Block.outline? tree
      | .error _ => none) = some "expression\n  variable x (0..1)\n" := by decide +kernel
  rw [← hparse] at hends
  cases htree : parse "x;" ended with
  | error f =>
    rw [htree] at houtline
    cases houtline
  | ok tree =>
    rw [htree] at houtline
    exact ⟨tree, rfl, houtline, htree ▸ hends⟩

end LetLang
