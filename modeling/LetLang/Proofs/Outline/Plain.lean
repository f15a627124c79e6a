import LetLang.Proofs.Java.Flat
import LetLang.Proofs.Outline.Trees
import LetLang.Proofs.Tree.Parsing
import LetLang.Proofs.Typing.Checking

/-!
Names and numbers are words. That is so for what the lexer reads, so the lines of a parsed tree are
plain. Typing takes names over and writes numbers anew; what else it adds are the names of host
functions.
-/

namespace LetLang

open Outline (Head Label)
open Text (OneWord)

/-! Words of a source. -/

theorem Text.OneWord.append {xs ys : List Char} (h : OneWord xs) (h' : OneWord ys) :
    OneWord (xs ++ ys) where
  space_not_mem hmem := (List.mem_append.1 hmem).elim h.space_not_mem h'.space_not_mem
  newline_not_mem hmem := (List.mem_append.1 hmem).elim h.newline_not_mem h'.newline_not_mem

theorem Text.oneWord_of_isDigits {cs : List Char} (h : isDigits cs) : OneWord cs :=
  .of_forall (fun _ => isDigit_of_mem h) rfl rfl

theorem Text.oneWord_fraction {whole fraction : List Char} (hw : isDigits whole)
    (hf : isDigits fraction) : OneWord (whole ++ '.' :: fraction) := by
  have hpoint : OneWord ['.'] := ⟨by decide, by decide⟩
  exact (oneWord_of_isDigits hw).append (hpoint.append (oneWord_of_isDigits hf))

/-- A name or a number that is spelled is a word. -/
def Spelling.Plain : Spelling → Prop
  | name word | integer word | decimal word => OneWord word.toList
  | _ => True

theorem Spelling.plain_ofWord {w : Word} (h : Lexer.IsWord w.kind w.text) : (ofWord w).Plain := by
  obtain ⟨k, text⟩ := w
  cases h with
  | @identifier c cs hc hcs =>
    simp only [ofWord, ofIdentifier]
    split
    · trivial
    · have hstart : Lexer.isNameChar c := by
        rw [Lexer.isNameStart, Bool.or_eq_true] at hc
        rcases hc with hc | hc <;> simp [Lexer.isNameChar, Char.isAlphanum, hc]
      rw [Plain, String.toList_ofList]
      exact .of_forall (List.forall_mem_cons.2 ⟨hstart, hcs⟩) rfl rfl
  | integer h =>
    rw [ofWord, Plain, String.toList_ofList]
    exact Text.oneWord_of_isDigits h
  | decimal hw hf =>
    rw [ofWord, Plain, String.toList_ofList]
    exact Text.oneWord_fraction hw hf
  | _ => trivial

/-! Trees whose lines are plain. -/

section

variable {p : Phase}

/-- The heads of all lines are plain. -/
def Expr.Plain (e : Expr p) : Prop := e.rose.Every Head.Plain

def Expr.PlainAll (es : List (Expr p)) : Prop := Rose.EveryAll Head.Plain (roseAll es)

def Stmt.Plain (s : Stmt p) : Prop := s.rose.Every Head.Plain

def Stmt.PlainAll (ss : Block p) : Prop := Rose.EveryAll Head.Plain (roseAll ss)

namespace Expr

variable {e e' : Expr p} {es : List (Expr p)} {x : Ident} {span : Span} {note : p.Note}

theorem plain_literal {value : p.Constant} :
    (literal value span note).Plain ↔ (Label.ofRaw (Phase.raw value)).Plain := by
  simp [Plain, rose, Head.Plain]

theorem plain_group : (group e span note).Plain ↔ e.Plain := by
  simp [Plain, rose, Head.Plain, Label.Plain]

theorem plain_binary {op : Operator} :
    (binary op e e' span note).Plain ↔ e.Plain ∧ e'.Plain := by
  simp [Plain, rose, Head.Plain, Label.Plain]

theorem plain_var : (var x span note).Plain ↔ OneWord x.name.toList := by
  simp [Plain, rose, Head.Plain, Label.Plain]

theorem plain_call {callee : p.Callee} :
    (call x es callee span note).Plain ↔ OneWord x.name.toList ∧
      (∀ host ∈ Phase.host? callee, OneWord host.toList) ∧ PlainAll es := by
  simp [Plain, PlainAll, rose, Head.Plain, Label.Plain, and_assoc]

theorem plainAll_nil : PlainAll ([] : List (Expr p)) := by
  simp [PlainAll, roseAll]

theorem plainAll_cons : PlainAll (e :: es) ↔ e.Plain ∧ PlainAll es := by
  simp [Plain, PlainAll, roseAll]

end Expr

namespace Stmt

variable {e : Expr p} {s : Stmt p} {ss ss' : Block p} {x : Ident} {span : Span}

theorem plain_expr : (expr e span).Plain ↔ e.Plain := by
  simp [Plain, Expr.Plain, rose, Head.Plain]

theorem plain_declaration {ty : p.TypeRef} {initial : Option (Expr p)} :
    (declaration x ty initial span).Plain ↔ OneWord x.name.toList ∧
      OneWord (Phase.showTypeRef ty).toList ∧ ∀ e ∈ initial, e.Plain := by
  cases initial <;> simp [Plain, Expr.Plain, rose, Head.Plain, and_assoc]

theorem plain_assignment :
    (assignment x e span).Plain ↔ OneWord x.name.toList ∧ e.Plain := by
  simp [Plain, Expr.Plain, rose, Head.Plain]

theorem plainAll_nil : PlainAll ([] : Block p) := by
  simp [PlainAll, roseAll]

theorem plainAll_cons : PlainAll (s :: ss) ↔ s.Plain ∧ PlainAll ss := by
  simp [Plain, PlainAll, roseAll]

theorem plain_branch : (branch e ss ss' span).Plain ↔ e.Plain ∧ PlainAll ss ∧ PlainAll ss' := by
  cases ss' <;> simp [Plain, PlainAll, Expr.Plain, rose, roseAll, Head.Plain]

theorem plain_loop : (loop e ss span).Plain ↔ e.Plain ∧ PlainAll ss := by
  simp [Plain, PlainAll, Expr.Plain, rose, Head.Plain]

end Stmt

end

/-! Parsed trees. -/

/-- Nothing but words is spelled. -/
def Plain (ts : List Lexeme) : Prop := ∀ t ∈ ts, t.spelling.Plain

theorem plain_append {ts us : List Lexeme} : Plain (ts ++ us) ↔ Plain ts ∧ Plain us :=
  List.forall_mem_append

theorem plain_cons {t : Lexeme} {ts : List Lexeme} :
    Plain (t :: ts) ↔ t.spelling.Plain ∧ Plain ts := List.forall_mem_cons

theorem Outline.Label.plain_ofRaw {s : Spelling} {value : RawLiteral} (hs : s.Plain)
    (h : Parser.literal? s = some value) : (ofRaw value).Plain := by
  unfold Parser.literal? at h
  split at h <;> cases h <;> exact hs

mutual

theorem ExprAt.plain {n : Nat} {ts : List Lexeme} {e : Expr .parsed} :
    ExprAt n ts e → Plain ts → e.Plain
  | .tighter h, hts => h.plain hts
  | .chain _ hl hr _, hts => by
    rw [plain_append, plain_cons] at hts
    exact Expr.plain_binary.2 ⟨hl.plain hts.1, hr.plain hts.2.2⟩
  | .literal hvalue, hts =>
    Expr.plain_literal.2 (Outline.Label.plain_ofRaw (plain_cons.1 hts).1 hvalue)
  | .var, hts => Expr.plain_var.2 (plain_cons.1 hts).1
  | .call hargs _, hts => by
    simp only [plain_append, plain_cons] at hts
    obtain ⟨hname, -, hts, -⟩ := hts
    exact Expr.plain_call.2 ⟨hname, nofun, hargs.plain hts⟩
  | .group h _, hts => by
    simp only [plain_append, plain_cons] at hts
    exact Expr.plain_group.2 (h.plain hts.2.1)

theorem ArgumentsAt.plain {ts : List Lexeme} {es : List (Expr .parsed)} :
    ArgumentsAt ts es → Plain ts → Expr.PlainAll es
  | .nil, _ => Expr.plainAll_nil
  | .last h, hts => Expr.plainAll_cons.2 ⟨h.plain hts, Expr.plainAll_nil⟩
  | .more h h', hts => by
    rw [plain_append, plain_cons] at hts
    exact Expr.plainAll_cons.2 ⟨h.plain hts.1, h'.plain hts.2.2⟩

end

theorem InitialAt.plain {ts : List Lexeme} {initial : Option (Expr .parsed)}
    (h : InitialAt ts initial) (hts : Plain ts) : ∀ e ∈ initial, e.Plain := by
  cases h with
  | none => exact nofun
  | some h =>
    rintro _ ⟨⟩
    exact h.plain (plain_cons.1 hts).2

mutual

theorem StmtAt.plain {ts : List Lexeme} {s : Stmt .parsed} : StmtAt ts s → Plain ts → s.Plain
  | .expr h _, hts => by
    rw [plain_append] at hts
    exact Stmt.plain_expr.2 (h.plain hts.1)
  | .declaration h _, hts => by
    simp only [plain_append, plain_cons] at hts
    obtain ⟨-, hname, -, hty, hinitial, -⟩ := hts
    exact Stmt.plain_declaration.2 ⟨hname, hty, h.plain hinitial⟩
  | .assignment h _, hts => by
    simp only [plain_append, plain_cons] at hts
    obtain ⟨hname, -, hvalue, -⟩ := hts
    exact Stmt.plain_assignment.2 ⟨hname, h.plain hvalue⟩
  | .branch hc hyes hno _, hts => by
    simp only [plain_append, plain_cons] at hts
    obtain ⟨-, hcs, -, hys, hns, -⟩ := hts
    exact Stmt.plain_branch.2 ⟨hc.plain hcs, hyes.plain hys, hno.plain hns⟩
  | .loop hc hbody _, hts => by
    simp only [plain_append, plain_cons] at hts
    obtain ⟨-, hcs, -, hbs, -⟩ := hts
    exact Stmt.plain_loop.2 ⟨hc.plain hcs, hbody.plain hbs⟩

theorem ElseAt.plain {ts : List Lexeme} {ss : Block .parsed} :
    ElseAt ts ss → Plain ts → Stmt.PlainAll ss
  | .none, _ => Stmt.plainAll_nil
  | .some h, hts => h.plain (plain_cons.1 hts).2

theorem BlockAt.plain {ts : List Lexeme} {ss : Block .parsed} :
    BlockAt ts ss → Plain ts → Stmt.PlainAll ss
  | .nil, _ => Stmt.plainAll_nil
  | .cons h h', hts => by
    rw [plain_append] at hts
    exact Stmt.plainAll_cons.2 ⟨h.plain hts.1, h'.plain hts.2⟩

end

theorem plainAll_of_parseProgram {source : String} {b : Block .parsed}
    (h : parseProgram source = .ok b) : Stmt.PlainAll b := by
  obtain ⟨ps, hcut, -, hblock, -⟩ := parseProgram_eq_ok_iff_of_fits.1 h
  refine hblock.plain fun t ht => ?_
  obtain ⟨p, hp, rfl⟩ := List.mem_map.1 ht
  exact Spelling.plain_ofWord (hcut.isWord p hp)

/-! Typed trees. -/

section

open Java (HostNamed)
open Rules

theorem Text.oneWord_integerNumeral (n : Int) : OneWord (integerNumeral n) := by
  cases n with
  | ofNat n => exact oneWord_numeral n
  | negSucc n =>
    have hsign : OneWord ['-'] := ⟨by decide, by decide⟩
    exact hsign.append (oneWord_numeral (n + 1))

/-- A checked literal is written anew. -/
theorem Outline.Label.plain_ofRaw_raw (l : Literal) : (ofRaw l.raw).Plain := by
  cases l with
  | integer i =>
    rw [Literal.raw, ofRaw, Label.Plain, BoundedInteger.text, String.toList_ofList]
    exact Text.oneWord_integerNumeral i.value
  | decimal d =>
    rw [Literal.raw, ofRaw, Label.Plain, BoundedDecimal.toList_text]
    exact Text.oneWord_fraction (Text.isDigits_numeral _) d.isDigits_fraction
  | _ => trivial

theorem Java.IsHostName.oneWord {x : String} (h : IsHostName x) : OneWord x.toList := by
  obtain ⟨-, hflat, hspace⟩ := h
  exact ⟨hspace, fun hbreak => absurd (hflat _ hbreak) (by decide)⟩

variable {catalog : Catalog} {env env' : Env}

mutual

theorem Rules.ExprTyped.plain (hcatalog : HostNamed catalog) {e : Expr .parsed}
    {e' : Expr .typed} : ExprTyped catalog env e e' → e.Plain → e'.Plain
  | .literal _, _ => Expr.plain_literal.2 (Outline.Label.plain_ofRaw_raw _)
  | .group h, he => Expr.plain_group.2 (h.plain hcatalog (Expr.plain_group.1 he))
  | .binary hl hr _, he => by
    rw [Expr.plain_binary] at he ⊢
    exact ⟨hl.plain hcatalog he.1, hr.plain hcatalog he.2⟩
  | .var _, he => Expr.plain_var.2 (Expr.plain_var.1 he)
  | .call hs hargs, he => by
    rw [Expr.plain_call] at he ⊢
    refine ⟨he.1, ?_, hargs.plain hcatalog he.2.2⟩
    rintro _ ⟨⟩
    exact (hcatalog.function hs).oneWord

theorem Rules.ArgumentsTyped.plain (hcatalog : HostNamed catalog) {es : List (Expr .parsed)}
    {ts : List Ty} {es' : List (Expr .typed)} :
    ArgumentsTyped catalog env es ts es' → Expr.PlainAll es → Expr.PlainAll es'
  | .nil, _ => Expr.plainAll_nil
  | .cons h _ hs, hes => by
    rw [Expr.plainAll_cons] at hes ⊢
    exact ⟨h.plain hcatalog hes.1, hs.plain hcatalog hes.2⟩

end

theorem Rules.InitialTyped.plain (hcatalog : HostNamed catalog) {t : Ty}
    {initial : Option (Expr .parsed)} {initial' : Option (Expr .typed)}
    (h : InitialTyped catalog env t initial initial') (hinitial : ∀ e ∈ initial, e.Plain) :
    ∀ e ∈ initial', e.Plain := by
  cases h with
  | none => exact nofun
  | some h _ =>
    rintro _ ⟨⟩
    exact h.plain hcatalog (hinitial _ rfl)

mutual

theorem Rules.StmtTyped.plain (hcatalog : HostNamed catalog) {env env' : Env} {s : Stmt .parsed}
    {s' : Stmt .typed} : StmtTyped catalog env s s' env' → s.Plain → s'.Plain
  | .expr _ h, hs => Stmt.plain_expr.2 (h.plain hcatalog (Stmt.plain_expr.1 hs))
  | .declaration _ _ _ h _, hs => by
    rw [Stmt.plain_declaration] at hs ⊢
    exact ⟨hs.1, Ty.oneWord_name _, h.plain hcatalog hs.2.2⟩
  | .assignment _ h _, hs => by
    rw [Stmt.plain_assignment] at hs ⊢
    exact ⟨hs.1, h.plain hcatalog hs.2⟩
  | .branch hc _ _ hyes hno, hs => by
    rw [Stmt.plain_branch] at hs ⊢
    exact ⟨hc.plain hcatalog hs.1, hyes.plain hcatalog hs.2.1, hno.plain hcatalog hs.2.2⟩
  | .loop hc _ hbody, hs => by
    rw [Stmt.plain_loop] at hs ⊢
    exact ⟨hc.plain hcatalog hs.1, hbody.plain hcatalog hs.2⟩

theorem Rules.BlockTyped.plain (hcatalog : HostNamed catalog) {env env' : Env}
    {ss : Block .parsed} {ss' : Block .typed} :
    BlockTyped catalog env ss ss' env' → Stmt.PlainAll ss → Stmt.PlainAll ss'
  | .nil, _ => Stmt.plainAll_nil
  | .cons h hs, hss => by
    rw [Stmt.plainAll_cons] at hss ⊢
    exact ⟨h.plain hcatalog hss.1, hs.plain hcatalog hss.2⟩

end

theorem plainAll_of_program (hcatalog : HostNamed catalog) {scope : Scope} {b : Block .parsed}
    {b' : Block .typed} (hb : Stmt.PlainAll b)
    (h : (Typing.program catalog scope b).1 = .ok b') : Stmt.PlainAll b' :=
  ((Typing.block_gives_iff scope b).1 ⟨Typing.block_of_program h, rfl⟩).plain hcatalog hb

end

end LetLang
