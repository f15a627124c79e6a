import LetLang.Proofs.Tree.Nodes
import LetLang.Proofs.Tree.Parsing

/-!
Parts of a source read on their own. The text of a node has the lexemes of the node, nearer to the
start, and a derivation moved to the start is a derivation; so the text of a statement is a program
of that one statement, and the text of an expression is one with a semicolon after it.
-/

namespace LetLang

open Text (byteLength Piece)
open Parser (literal?)

/-! Moving towards the start. -/

/-- The same length, `n` bytes nearer to the start. -/
def Span.back (n : Nat) (s : Span) : Span := ⟨s.lo - n, s.len⟩

theorem Span.hi_back {n : Nat} {s : Span} (h : n ≤ s.lo) : (s.back n).hi = s.hi - n := by
  simp only [hi, back]
  omega

theorem Span.join?_back {n : Nat} {a b s : Span} (ha : n ≤ a.lo) (hb : n ≤ b.lo)
    (h : a.join? b = some s) : n ≤ s.lo ∧ (a.back n).join? (b.back n) = some (s.back n) := by
  obtain ⟨hlo, hhi, hlen, hmax⟩ := ofBounds?_eq_some_iff.1 h
  have hn : n ≤ s.lo := by omega
  refine ⟨hn, ofBounds?_eq_some_iff.2 ⟨?_, ?_, hlen, ?_⟩⟩
  · simp only [back]
    omega
  · rw [hi_back hn, hi_back ha, hi_back hb]
    omega
  · rw [hi_back hn]
    omega

def Lexeme.back (n : Nat) (t : Lexeme) : Lexeme := { t with span := t.span.back n }

def Ident.back (n : Nat) (x : Ident) : Ident := { x with span := x.span.back n }

namespace Expr

mutual

def back (n : Nat) : Expr .parsed → Expr .parsed
  | literal value span note => .literal value (span.back n) note
  | group inner span note => .group (inner.back n) (span.back n) note
  | binary op lhs rhs span note => .binary op (lhs.back n) (rhs.back n) (span.back n) note
  | var name span note => .var (name.back n) (span.back n) note
  | call name args callee span note =>
    .call (name.back n) (backAll n args) callee (span.back n) note

def backAll (n : Nat) : List (Expr .parsed) → List (Expr .parsed)
  | [] => []
  | e :: es => e.back n :: backAll n es

end

@[simp] theorem span_back (n : Nat) (e : Expr .parsed) : (e.back n).span = e.span.back n := by
  cases e <;> simp only [back, span]

end Expr

namespace Stmt

mutual

def back (n : Nat) : Stmt .parsed → Stmt .parsed
  | expr value span => .expr (value.back n) (span.back n)
  | declaration name ty initial span =>
    .declaration (name.back n) (Ident.back n ty) (initial.map (Expr.back n)) (span.back n)
  | assignment target value span => .assignment (target.back n) (value.back n) (span.back n)
  | branch condition yes no span =>
    .branch (condition.back n) (backAll n yes) (backAll n no) (span.back n)
  | loop condition body span => .loop (condition.back n) (backAll n body) (span.back n)

def backAll (n : Nat) : Block .parsed → Block .parsed
  | [] => []
  | s :: ss => s.back n :: backAll n ss

end

end Stmt

section Moving

variable {n : Nat}

mutual

theorem ExprAt.back {k : Nat} {us : List Lexeme} {e : Expr .parsed} :
    ExprAt k us e → (∀ t ∈ us, n ≤ t.span.lo) →
    n ≤ e.span.lo ∧ ExprAt k (us.map (Lexeme.back n)) (e.back n)
  | .tighter h, hus => (h.back hus).imp_right .tighter
  | .chain hop hl hr hjoin, hus => by
    obtain ⟨hls, hrs⟩ := List.forall_mem_append.1 hus
    obtain ⟨hlo, hl⟩ := hl.back hls
    obtain ⟨hlo', hr⟩ := hr.back (List.forall_mem_cons.1 hrs).2
    obtain ⟨hn, hjoin⟩ := Span.join?_back hlo hlo' hjoin
    rw [List.map_append, List.map_cons, Expr.back]
    exact ⟨hn, .chain hop hl hr (by simpa using hjoin)⟩
  | @ExprAt.literal t _ hv, hus => by
    rw [Expr.back]
    exact ⟨(List.forall_mem_cons.1 hus).1, .literal (t := t.back n) hv⟩
  | .var, hus => by
    rw [Expr.back]
    exact ⟨(List.forall_mem_cons.1 hus).1, .var⟩
  | .call hargs hjoin, hus => by
    simp only [List.forall_mem_cons, List.forall_mem_append] at hus
    obtain ⟨hn, hjoin⟩ := Span.join?_back hus.1 hus.2.2.2.1 hjoin
    simp only [List.map_cons, List.map_append, List.map_nil, Expr.back]
    exact ⟨hn, .call (hargs.back hus.2.2.1) hjoin⟩
  | .group h hjoin, hus => by
    simp only [List.forall_mem_cons, List.forall_mem_append] at hus
    obtain ⟨hn, hjoin⟩ := Span.join?_back hus.1 hus.2.2.1 hjoin
    simp only [List.map_cons, List.map_append, List.map_nil, Expr.back]
    exact ⟨hn, .group (h.back hus.2.1).2 hjoin⟩

theorem ArgumentsAt.back {us : List Lexeme} {es : List (Expr .parsed)} :
    ArgumentsAt us es → (∀ t ∈ us, n ≤ t.span.lo) →
    ArgumentsAt (us.map (Lexeme.back n)) (Expr.backAll n es)
  | .nil, _ => .nil
  | .last h, hus => .last (h.back hus).2
  | .more h hmore, hus => by
    obtain ⟨hts, hus⟩ := List.forall_mem_append.1 hus
    have hmore := hmore.back (List.forall_mem_cons.1 hus).2
    simp only [List.map_cons, List.map_append, Expr.backAll] at hmore ⊢
    exact .more (h.back hts).2 hmore

end

theorem InitialAt.back {us : List Lexeme} {initial : Option (Expr .parsed)} :
    InitialAt us initial → (∀ t ∈ us, n ≤ t.span.lo) →
    InitialAt (us.map (Lexeme.back n)) (initial.map (Expr.back n))
  | .none, _ => .none
  | .some h, hus => .some (h.back (List.forall_mem_cons.1 hus).2).2

mutual

theorem StmtAt.back {us : List Lexeme} {s : Stmt .parsed} :
    StmtAt us s → (∀ t ∈ us, n ≤ t.span.lo) → StmtAt (us.map (Lexeme.back n)) (s.back n)
  | .expr h hjoin, hus => by
    simp only [List.forall_mem_cons, List.forall_mem_append] at hus
    obtain ⟨hlo, h⟩ := h.back hus.1
    have hjoin := (Span.join?_back hlo hus.2.1 hjoin).2
    rw [List.map_append, Stmt.back]
    exact .expr h (by simpa using hjoin)
  | .declaration h hjoin, hus => by
    simp only [List.forall_mem_cons, List.forall_mem_append] at hus
    obtain ⟨hstart, -, -, -, hts, hstop, -⟩ := hus
    simp only [List.map_cons, List.map_append, List.map_nil, Stmt.back]
    exact .declaration (h.back hts) (Span.join?_back hstart hstop hjoin).2
  | .assignment h hjoin, hus => by
    simp only [List.forall_mem_cons, List.forall_mem_append] at hus
    obtain ⟨hstart, -, hts, hstop, -⟩ := hus
    simp only [List.map_cons, List.map_append, List.map_nil, Stmt.back]
    exact .assignment (h.back hts).2 (Span.join?_back hstart hstop hjoin).2
  | .branch hc hyes hno hjoin, hus => by
    simp only [List.forall_mem_cons, List.forall_mem_append] at hus
    obtain ⟨hstart, hcs, -, hys, hns, hstop, -⟩ := hus
    simp only [List.map_cons, List.map_append, List.map_nil, Stmt.back]
    exact .branch (hc.back hcs).2 (hyes.back hys) (hno.back hns)
      (Span.join?_back hstart hstop hjoin).2
  | .loop hc hbody hjoin, hus => by
    simp only [List.forall_mem_cons, List.forall_mem_append] at hus
    obtain ⟨hstart, hcs, -, hbs, hstop, -⟩ := hus
    simp only [List.map_cons, List.map_append, List.map_nil, Stmt.back]
    exact .loop (hc.back hcs).2 (hbody.back hbs) (Span.join?_back hstart hstop hjoin).2

theorem ElseAt.back {us : List Lexeme} {ss : Block .parsed} :
    ElseAt us ss → (∀ t ∈ us, n ≤ t.span.lo) →
    ElseAt (us.map (Lexeme.back n)) (Stmt.backAll n ss)
  | .none, _ => .none
  | .some h, hus => .some (h.back (List.forall_mem_cons.1 hus).2)

theorem BlockAt.back {us : List Lexeme} {ss : Block .parsed} :
    BlockAt us ss → (∀ t ∈ us, n ≤ t.span.lo) →
    BlockAt (us.map (Lexeme.back n)) (Stmt.backAll n ss)
  | .nil, _ => .nil
  | .cons h hss, hus => by
    obtain ⟨hts, hus⟩ := List.forall_mem_append.1 hus
    rw [List.map_append, Stmt.backAll]
    exact .cons (h.back hts) (hss.back hus)

end

end Moving

/-! The text of a stretch of lexemes. -/

open Lexer (lexicon lexemeOf tokenOf)

theorem Lexer.hi_lexemeOf (p : Piece TokenKind) : (lexemeOf p).span.hi = p.stop := rfl

/-- Lexemes that stand together have a text, which is cut into them whatever shut-off text is put
after it. -/
theorem Extent.exists_text {source : List Char} {ps : List (Piece TokenKind)}
    {before us after : List Lexeme} {s : Span} (hcut : lexicon.Cut 0 source ps)
    (hps : ps.map lexemeOf = before ++ (us ++ after)) (h : Extent us s) :
    ∃ text, s.slice? source = some text ∧ byteLength text = s.len ∧
      ∀ tail ts, lexicon.Shut tail → lexicon.Cut (s.lo + byteLength text) tail ts →
        ∃ qs, lexicon.Cut 0 (text ++ tail) qs ∧
          qs.map lexemeOf = (us ++ ts.map lexemeOf).map (Lexeme.back s.lo) := by
  obtain ⟨ps₁, ps', rfl, rfl, hps'⟩ := List.map_eq_append_iff.1 hps
  obtain ⟨ps₂, ps₃, rfl, rfl, rfl⟩ := List.map_eq_append_iff.1 hps'
  obtain ⟨⟨t, ht, hlo⟩, u, hu, hhi⟩ := h
  cases ps₂ with
  | nil => cases ht
  | cons p ps₂ =>
    obtain ⟨b, text, a, rfl, hb, hstop, hgo⟩ := hcut.middle
    obtain rfl : lexemeOf p = t := by simpa using ht
    obtain ⟨q, hq, rfl⟩ : ∃ q ∈ (p :: ps₂).getLast?, lexemeOf q = u := by
      rw [List.getLast?_map] at hu
      exact Option.map_eq_some_iff.1 hu
    have hlo : s.lo = p.offset := hlo
    have hlen : byteLength text = s.len := by
      have := hstop q hq
      rw [Lexer.hi_lexemeOf, this] at hhi
      simp only [Span.hi] at hhi
      omega
    refine ⟨text, Text.slice?_eq_some_iff.2 ⟨b, a, by simp, hb.trans hlo.symm, hlen⟩, hlen, ?_⟩
    rw [hlo]
    intro tail ts ht hts
    refine ⟨_, hgo tail ts ht hts, ?_⟩
    simp only [List.map_map, List.map_append]
    rfl

/-- Between two lexemes that stand next to each other there are only blanks. -/
theorem Lexer.exists_gap_of_cut {source : List Char} {ps : List (Piece TokenKind)}
    {before after : List Lexeme} {t u : Lexeme} (hcut : lexicon.Cut 0 source ps)
    (hps : ps.map lexemeOf = before ++ t :: u :: after) :
    ∃ gap, Span.slice? ⟨t.span.hi, u.span.lo - t.span.hi⟩ source = some gap ∧
      ∀ c ∈ gap, isBlank c := by
  obtain ⟨ps₁, ps', rfl, rfl, hps'⟩ := List.map_eq_append_iff.1 hps
  obtain ⟨p, ps₂, rfl, rfl, hps₂⟩ := List.map_eq_cons_iff.1 hps'
  obtain ⟨q, ps₃, rfl, rfl, rfl⟩ := List.map_eq_cons_iff.1 hps₂
  rw [← List.singleton_append, ← List.append_assoc] at hcut
  obtain ⟨b, rest, rfl, hrest, -, hstop, -⟩ := hcut.split
  obtain ⟨gap, a, rfl, hblank, hq⟩ := hrest.uncons
  have hp : p.stop = byteLength b := by simpa using hstop
  rw [hi_lexemeOf, hp]
  have hlo : (lexemeOf q).span.lo = byteLength b + byteLength gap := by
    rw [Nat.zero_add] at hq
    exact hq
  rw [hlo, Nat.add_sub_cancel_left]
  exact ⟨gap, Text.slice?_eq_some_iff.2 ⟨b, q.word.text ++ a, by simp, rfl, rfl⟩, hblank⟩

/-- Statements that follow each other in a block have only blanks between them. -/
theorem BlockAt.exists_gap {source : List Char} {ps : List (Piece TokenKind)}
    {before us after : List Lexeme} {first second : Stmt .parsed} {ss ss' : Block .parsed}
    (hcut : lexicon.Cut 0 source ps) (hps : ps.map lexemeOf = before ++ (us ++ after))
    (h : BlockAt us (ss ++ first :: second :: ss')) :
    ∃ gap, Span.slice? ⟨first.span.hi, second.span.lo - first.span.hi⟩ source = some gap ∧
      ∀ c ∈ gap, Lexer.isBlank c := by
  have ho : InOrder us := InOrder.mid (hps ▸ Lexer.inOrder_of_cut hcut)
  induction ss generalizing us before with
  | cons s ss ih =>
    cases h with
    | @cons vs ws _ _ _ h =>
      have hps' : ps.map lexemeOf = (before ++ vs) ++ (ws ++ after) := by simpa using hps
      exact ih hps' h (List.pairwise_append.1 ho).2.1
  | nil =>
    obtain ⟨vs, us, hfirst, h⟩ : ∃ vs vs', StmtAt vs first ∧ ∃ ws, StmtAt vs' second ∧
        us = vs ++ (vs' ++ ws) := by
      cases h with
      | cons hfirst h =>
        cases h with
        | cons hsecond _ => exact ⟨_, _, hfirst, _, hsecond, rfl⟩
    obtain ⟨ws, hsecond, rfl⟩ := h
    obtain ⟨t, ht, hhi⟩ := (hfirst.extent (List.pairwise_append.1 ho).1).last
    obtain ⟨u, hu, hlo⟩ := (hsecond.extent ho.mid).first
    obtain ⟨init, rfl⟩ := List.getLast?_eq_some_iff.1 ht
    obtain ⟨tail, rfl⟩ := List.head?_eq_some_iff.1 hu
    have hps' : ps.map lexemeOf = (before ++ init) ++ t :: u :: (tail ++ ws ++ after) := by
      simpa using hps
    rw [hhi, hlo]
    exact Lexer.exists_gap_of_cut hcut hps'

/-! The parts of a program. -/

theorem Lexer.byteLength_pos_of_cut {source : List Char} {ps : List (Piece TokenKind)}
    (h : lexicon.Cut 0 source ps) : ∀ t ∈ ps.map lexemeOf, t.span.lo < t.span.hi := by
  intro t ht
  obtain ⟨p, hp, rfl⟩ := List.mem_map.1 ht
  obtain ⟨c, cs, htext, -⟩ := (h.isWord p hp).startsWord
  rw [hi_lexemeOf, Piece.stop, htext]
  exact Nat.lt_add_of_pos_right (Text.byteLength_pos (List.cons_ne_nil _ _))

/-- The semicolon that is put after an expression. -/
theorem Lexer.cut_semicolon (o : Nat) :
    lexicon.Cut o [';'] [⟨o, .mark .semicolon, [';']⟩] := by
  have hword : lexicon.IsWord (.mark .semicolon) [';'] := IsWord.mark .semicolon
  have hlongest := Text.Lexicon.longest_of_shut hword Text.Lexicon.shut_nil
  exact .word hlongest .nil

theorem Text.byteLength_le_of_slice? {cs text : List Char} {lo len : Nat}
    (h : slice? cs lo len = some text) : lo + byteLength text ≤ byteLength cs := by
  obtain ⟨before, after, rfl, hlo, hlen⟩ := slice?_eq_some_iff.1 h
  simp only [byteLength_append]
  omega

section Parts

variable {source : String} {ps : List (Piece TokenKind)} {before us after : List Lexeme}

/-- The text of a statement is a program of one statement. -/
theorem StmtAt.parseProgram_text {s : Stmt .parsed} (h : StmtAt us s)
    (hlen : byteLength source.toList ≤ Span.maxLength) (hcut : lexicon.Cut 0 source.toList ps)
    (hps : ps.map lexemeOf = before ++ (us ++ after)) :
    ∃ text, s.span.slice? source.toList = some text ∧
      parseProgram (String.ofList text) = .ok [s.back s.span.lo] := by
  have ho : InOrder us := InOrder.mid (hps ▸ Lexer.inOrder_of_cut hcut)
  have hextent := h.extent ho
  obtain ⟨text, hslice, -, hgo⟩ := hextent.exists_text hcut hps
  obtain ⟨qs, hqs, hlexemes⟩ := hgo [] [] Text.Lexicon.shut_nil .nil
  have hle := Text.byteLength_le_of_slice? hslice
  refine ⟨text, hslice, (parseProgram_eq_ok_iff ?_).2 ⟨qs, ?_, ?_, by simp⟩⟩
  · rw [String.toList_ofList]
    omega
  · simpa using hqs
  · rw [hlexemes]
    have := h.back fun t ht => (hextent.inside ho t ht).1
    simpa using BlockAt.cons this .nil

/-- The text of an expression, with a semicolon after it, is a program of one expression. -/
theorem ExprAt.parseProgram_text {e : Expr .parsed} (h : ExprAt 0 us e)
    (hlen : byteLength source.toList ≤ Span.maxLength) (hcut : lexicon.Cut 0 source.toList ps)
    (hps : ps.map lexemeOf = before ++ (us ++ after)) (hafter : after ≠ []) :
    ∃ text, e.span.slice? source.toList = some text ∧
      parseProgram (String.ofList (text ++ [';'])) =
        .ok [.expr (e.back e.span.lo) ⟨0, e.span.len + 1⟩] := by
  have ho : InOrder (before ++ (us ++ after)) := hps ▸ Lexer.inOrder_of_cut hcut
  have hextent := h.extent ho.mid
  obtain ⟨text, hslice, htext, hgo⟩ := hextent.exists_text hcut hps
  obtain ⟨qs, hqs, hlexemes⟩ := hgo [';'] [_] (Lexer.shut_of_head (by decide))
    (Lexer.cut_semicolon _)
  have hroom : e.span.hi < byteLength source.toList := by
    obtain ⟨t, rest, rfl⟩ := List.exists_cons_of_ne_nil hafter
    obtain ⟨l, hl, hhi⟩ := hextent.mem_last
    have ht : t ∈ ps.map lexemeOf := by simp [hps]
    have hlast := (List.pairwise_append.1 (List.pairwise_append.1 ho).2.1).2.2 l hl t (by simp)
    have hpos := Lexer.byteLength_pos_of_cut hcut t ht
    have hend := (Lexer.sound_of_cut hcut t ht).hi_le
    omega
  have hlen' : e.span.len + 1 ≤ Span.maxLength := by
    simp only [Span.hi] at hroom
    omega
  refine ⟨text, hslice, (parseProgram_eq_ok_iff ?_).2 ⟨qs, ?_, ?_, by simp⟩⟩
  · rw [String.toList_ofList, Text.byteLength_append, htext]
    exact hlen'
  · simpa using hqs
  · have he := (h.back fun t ht => (hextent.inside ho.mid t ht).1).2
    have hjoin : (e.back e.span.lo).span.join? ⟨e.span.len, 1⟩ = some ⟨0, e.span.len + 1⟩ := by
      rw [Expr.span_back]
      refine Span.ofBounds?_eq_some_iff.2 ⟨?_, ?_, hlen', ?_⟩
      · simp [Span.back]
      · simp [Span.back, Span.hi]
      · exact Nat.le_trans (Nat.le_of_eq (Nat.zero_add _)) (Nat.le_trans hlen' (by decide))
    have hstop : (lexemeOf ⟨e.span.lo + byteLength text, .mark .semicolon, [';']⟩).back e.span.lo =
        ⟨.mark .semicolon, ⟨e.span.len, 1⟩⟩ := by
      simp only [lexemeOf, tokenOf, Lexeme.back, Span.back, htext, Nat.add_sub_cancel_left]
      rfl
    have := BlockAt.cons (StmtAt.expr he hjoin) .nil
    rw [hlexemes, List.map_append, List.map_cons, List.map_nil, List.map_cons, List.map_nil, hstop]
    simpa using this

/-- The text of a name is the name. -/
theorem Lexer.slice?_name {x : String} {span : Span} (hcut : lexicon.Cut 0 source.toList ps)
    (hps : ⟨.name x, span⟩ ∈ ps.map lexemeOf) : span.slice? source.toList = some x.toList := by
  obtain ⟨p, hp, hx⟩ := List.mem_map.1 hps
  obtain ⟨hspelling, rfl⟩ := Lexeme.mk.inj hx
  obtain ⟨b, a, hs, ho⟩ := hcut.placed p hp
  have hword := Spelling.word_ofWord (hcut.isWord p hp)
  rw [hspelling] at hword
  have htext : p.word.text = x.toList := by rw [← hword]; rfl
  rw [Nat.zero_add] at ho
  refine Text.slice?_eq_some_iff.2 ⟨b, a, by rw [hs, htext, List.append_assoc], ho.symm, ?_⟩
  rw [← htext]
  rfl

end Parts

/-- What the spans of a program say about the source that it is read from. -/
structure Spanned (source : String) (program : Block .parsed) : Prop where
  whole : Span.Divides (program.map Stmt.span) ⟨0, byteLength source.toList⟩
  parts : ∀ n : Node, n.Within (program.map .stmt) → Span.Divides (n.parts.map Node.span) n.span
  /-- Statements that follow each other in any block have only blanks between them. -/
  gaps : ∀ ss, (ss = program ∨ ∃ n : Node, n.Within (program.map .stmt) ∧ ss ∈ n.blocks) →
    ∀ before first second after, ss = before ++ first :: second :: after →
      ∃ gap, Span.slice? ⟨first.span.hi, second.span.lo - first.span.hi⟩ source.toList = some gap ∧
        ∀ c ∈ gap, Lexer.isBlank c
  stmts : ∀ s, (Node.stmt s).Within (program.map .stmt) →
    ∃ text, s.span.slice? source.toList = some text ∧
      parseProgram (String.ofList text) = .ok [s.back s.span.lo]
  exprs : ∀ e, (Node.expr e).Within (program.map .stmt) →
    ∃ text, e.span.slice? source.toList = some text ∧
      parseProgram (String.ofList (text ++ [';'])) =
        .ok [.expr (e.back e.span.lo) ⟨0, e.span.len + 1⟩]
  names : ∀ x, (Node.name x).Within (program.map .stmt) →
    x.span.slice? source.toList = some x.name.toList

theorem spanned_of_parseProgram (source : String) (program : Block .parsed)
    (hlen : byteLength source.toList ≤ Span.maxLength) (h : parseProgram source = .ok program) :
    Spanned source program := by
  obtain ⟨ps, hcut, hss, -⟩ := (parseProgram_eq_ok_iff hlen).1 h
  have ho := Lexer.inOrder_of_cut hcut
  have hsound := Lexer.sound_of_cut hcut
  constructor
  case whole =>
    have hinside : ∀ t ∈ ps.map lexemeOf, (⟨0, byteLength source.toList⟩ : Span).lo ≤ t.span.lo ∧
        t.span.hi ≤ (⟨0, byteLength source.toList⟩ : Span).hi := fun t ht =>
      ⟨Nat.zero_le _, by simpa [Span.hi] using (hsound t ht).hi_le⟩
    have hspans : program.map Stmt.span = (program.map Node.stmt).map Node.span := by
      simp [Function.comp_def, Node.span]
    rw [hspans]
    exact ⟨hss.along.inside ho hinside, hss.along.ordered ho⟩
  case parts =>
    intro n hn
    obtain ⟨before, us, after, hps, hat, -⟩ := hss.exists_at hn
    exact hat.divides (InOrder.mid (hps ▸ ho))
  case gaps =>
    rintro ss hblock before first second after rfl
    rcases hblock with hprogram | ⟨n, hn, hmem⟩
    · have hps : ps.map lexemeOf = [] ++ (ps.map lexemeOf ++ []) := by simp
      exact BlockAt.exists_gap hcut hps (hprogram ▸ hss)
    · obtain ⟨before', us, after', hps, hat, -⟩ := hss.exists_at hn
      cases n with
      | name | expr => cases hmem
      | stmt s =>
        obtain ⟨vs, mid, ws, rfl, hmid⟩ := StmtAt.exists_blockAt hat hmem
        have hps' : ps.map lexemeOf = (before' ++ vs) ++ (mid ++ (ws ++ after')) := by simp [hps]
        exact hmid.exists_gap hcut hps'
  case stmts =>
    intro s hs
    obtain ⟨before, us, after, hps, hat, -⟩ := hss.exists_at hs
    exact StmtAt.parseProgram_text hat hlen hcut hps
  case exprs =>
    intro e he
    obtain ⟨before, us, after, hps, hat, hafter⟩ := hss.exists_at he
    exact ExprAt.parseProgram_text hat hlen hcut hps (hafter (by simp))
  case names =>
    intro x hx
    obtain ⟨before, us, after, hps, hat, -⟩ := hss.exists_at hx
    obtain rfl : us = [⟨.name x.name, x.span⟩] := hat
    exact Lexer.slice?_name hcut (by simp [hps])

theorem spanned_of_nested_source :
    byteLength "WHILE a DO b = f((1 + c), \"é\"); END LET d: INTEGER;".toList ≤ Span.maxLength ∧
    ∃ program, parseProgram "WHILE a DO b = f((1 + c), \"é\"); END LET d: INTEGER;" = .ok program ∧
      Spanned "WHILE a DO b = f((1 + c), \"é\"); END LET d: INTEGER;" program := by
  have hlen : byteLength "WHILE a DO b = f((1 + c), \"é\"); END LET d: INTEGER;".toList ≤
      Span.maxLength := by decide
  have hok : (parseProgram "WHILE a DO b = f((1 + c), \"é\"); END LET d: INTEGER;").isOk := by
    decide +kernel
  refine ⟨hlen, ?_⟩
  cases h : parseProgram "WHILE a DO b = f((1 + c), \"é\"); END LET d: INTEGER;" with
  | ok program => exact ⟨program, rfl, spanned_of_parseProgram _ _ hlen h⟩
  | error f =>
    rw [h] at hok
    cases hok

end LetLang
