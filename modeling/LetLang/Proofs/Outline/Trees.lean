import LetLang.Proofs.Literal.Decimal
import LetLang.Proofs.Outline.Heads
import LetLang.Proofs.Outline.Rose
import LetLang.Proofs.Typing.Annotations

/-!
The tree behind an outline. Statements and expressions are its nodes, and so are the words in front
of blocks, which keep the blocks of a statement apart from its condition. It is the tree that was
printed, up to the places that no line shows: those of statements, of names and of the names of
types.
-/

namespace LetLang

open Outline (Head Label)
open Text (Line)

/-! Trees without the places that are not shown. -/

def Ident.unplaced (x : Ident) : Ident := x.mapSpan fun _ => ⟨0, 0⟩

def Phase.TypeRef.unplaced {p : Phase} (ty : p.TypeRef) : p.TypeRef :=
  TypeRef.mapSpan (fun _ => ⟨0, 0⟩) ty

namespace Expr

variable {p : Phase}

mutual

/-- Expressions keep their own places, but not those of the names in them. -/
def unplaced : Expr p → Expr p
  | literal value span note => .literal value span note
  | group inner span note => .group inner.unplaced span note
  | binary op lhs rhs span note => .binary op lhs.unplaced rhs.unplaced span note
  | var name span note => .var name.unplaced span note
  | call name args callee span note => .call name.unplaced (unplacedAll args) callee span note

def unplacedAll : List (Expr p) → List (Expr p)
  | [] => []
  | e :: es => e.unplaced :: unplacedAll es

end

end Expr

namespace Stmt

variable {p : Phase}

mutual

def unplaced : Stmt p → Stmt p
  | expr value _ => .expr value.unplaced ⟨0, 0⟩
  | declaration name ty initial _ =>
    .declaration name.unplaced (Phase.TypeRef.unplaced ty) (initial.map Expr.unplaced) ⟨0, 0⟩
  | assignment target value _ => .assignment target.unplaced value.unplaced ⟨0, 0⟩
  | branch condition yes no _ =>
    .branch condition.unplaced (unplacedAll yes) (unplacedAll no) ⟨0, 0⟩
  | loop condition body _ => .loop condition.unplaced (unplacedAll body) ⟨0, 0⟩

def unplacedAll : Block p → Block p
  | [] => []
  | s :: ss => s.unplaced :: unplacedAll ss

end

end Stmt

/-! What a line shows of a node. -/

namespace Phase

variable {p : Phase}

def raw : {p : Phase} → p.Constant → RawLiteral
  | parsed, value => value
  | typed, value => value.raw

def ty? : {p : Phase} → p.Note → Option Ty
  | parsed, _ => none
  | typed, ty => some ty

def host? : {p : Phase} → p.Callee → Option String
  | parsed, _ => none
  | typed, host => some host

end Phase

mutual

def Expr.rose {p : Phase} : Expr p → Rose Head
  | .literal value span note => .node (.node (.ofRaw (Phase.raw value)) span (Phase.ty? note)) []
  | .group inner span note => .node (.node .group span (Phase.ty? note)) [inner.rose]
  | .binary op lhs rhs span note =>
    .node (.node (.binary op) span (Phase.ty? note)) [lhs.rose, rhs.rose]
  | .var name span note => .node (.node (.var name.name) span (Phase.ty? note)) []
  | .call name args callee span note =>
    .node (.node (.call name.name (Phase.host? callee)) span (Phase.ty? note)) (roseAll args)

def Expr.roseAll {p : Phase} : List (Expr p) → List (Rose Head)
  | [] => []
  | e :: es => e.rose :: roseAll es

end

mutual

def Stmt.rose {p : Phase} : Stmt p → Rose Head
  | .expr value _ => .node .expression [value.rose]
  | .declaration name ty initial _ =>
    .node (.declaration name.name (Phase.showTypeRef ty) initial.isSome)
      (initial.toList.map Expr.rose)
  | .assignment target value _ => .node (.assignment target.name) [value.rose]
  | .branch condition yes no _ =>
    .node .branch (condition.rose :: .node .yes (roseAll yes) ::
      if no.isEmpty then [] else [.node .no (roseAll no)])
  | .loop condition body _ => .node .loop [condition.rose, .node .body (roseAll body)]

def Stmt.roseAll {p : Phase} : Block p → List (Rose Head)
  | [] => []
  | s :: ss => s.rose :: roseAll ss

end

/-! The lines of an outline are the rows of its tree. -/

namespace Outline

def line (row : Nat × Head) : Line := ⟨row.1, row.2.text⟩

end Outline

section

variable {p : Phase}

theorem Expr.text_headline (level : Nat) (label : Label) (span : Span) (note : p.Note) :
    headline level label.text span note =
      Outline.line (level, .node label span (Phase.ty? note)) := by
  have hnote : Phase.showNote note = Outline.Head.showType (Phase.ty? note) := by
    cases p <;> rfl
  rw [headline, hnote]
  rfl

theorem Phase.showConstant_eq (value : p.Constant) :
    Phase.showConstant value = (Label.ofRaw (Phase.raw value)).text := by
  have hraw (r : RawLiteral) : r.describe = (Label.ofRaw r).text := by cases r <;> rfl
  cases p <;> exact hraw _

mutual

theorem Expr.outline_eq {level : Nat} : (e : Expr p) →
    e.outline level = (e.rose.rows level).map Outline.line
  | .literal value span note => by
    rw [outline, rose, Phase.showConstant_eq, text_headline]
    simp
  | .group inner span note => by
    have hhead := @text_headline p level .group span note
    rw [outline, rose, Expr.outline_eq inner]
    simp [← hhead, Label.text]
  | .binary op lhs rhs span note => by
    have hhead := text_headline level (.binary op) span note
    rw [outline, rose, Expr.outline_eq lhs, Expr.outline_eq rhs]
    simp [← hhead, Label.text]
  | .var name span note => by
    have hhead := text_headline level (.var name.name) span note
    rw [outline, rose]
    simp [← hhead, Label.text]
  | .call name args callee span note => by
    have hhead := text_headline level (.call name.name (Phase.host? callee)) span note
    have hcallee : Phase.showCallee callee = (Phase.host? callee).elim "" (" -> " ++ ·) := by
      cases p <;> rfl
    rw [outline, rose, Expr.outlineAll_eq args, hcallee]
    simp [← hhead, Label.text]

theorem Expr.outlineAll_eq {level : Nat} : (es : List (Expr p)) →
    outlineAll level es = (Rose.rowsAll level (roseAll es)).map Outline.line
  | [] => by rw [outlineAll, roseAll, Rose.rowsAll_nil, List.map_nil]
  | e :: es => by
    rw [outlineAll, roseAll, Rose.rowsAll_cons, List.map_append, Expr.outline_eq e,
      Expr.outlineAll_eq es]

end

mutual

theorem Stmt.outline_eq {level : Nat} : (s : Stmt p) →
    s.outline level = (s.rose.rows level).map Outline.line
  | .expr value _ => by
    rw [outline, rose, value.outline_eq]
    simp [Outline.line, Head.text]
  | .declaration name ty none _ => by
    rw [outline, rose]
    simp [Outline.line, Head.text, Head.showInitialized]
  | .declaration name ty (some initial) _ => by
    rw [outline, rose, initial.outline_eq]
    simp [Outline.line, Head.text, Head.showInitialized]
  | .assignment target value _ => by
    rw [outline, rose, value.outline_eq]
    simp [Outline.line, Head.text]
  | .branch condition yes [] _ => by
    rw [outline, rose, condition.outline_eq, Stmt.outlineAll_eq yes]
    simp [Outline.line, Head.text]
  | .branch condition yes (s :: ss) _ => by
    rw [outline, rose, condition.outline_eq, Stmt.outlineAll_eq yes, Stmt.outlineAll_eq (s :: ss)]
    simp [Outline.line, Head.text]
  | .loop condition body _ => by
    rw [outline, rose, condition.outline_eq, Stmt.outlineAll_eq body]
    simp [Outline.line, Head.text]

theorem Stmt.outlineAll_eq {level : Nat} : (ss : Block p) →
    outlineAll level ss = (Rose.rowsAll level (roseAll ss)).map Outline.line
  | [] => by rw [outlineAll, roseAll, Rose.rowsAll_nil, List.map_nil]
  | s :: ss => by
    rw [outlineAll, roseAll, Rose.rowsAll_cons, List.map_append, Stmt.outline_eq s,
      Stmt.outlineAll_eq ss]

end

/-! A line tells what it shows. -/

theorem Text.integerNumeral_injective {n n' : Int} (h : integerNumeral n = integerNumeral n') :
    n = n' := by
  have := integerValue?_eq_some_iff.2 (spells_integerNumeral n)
  rw [h, integerValue?_eq_some_iff.2 (spells_integerNumeral n')] at this
  exact (Option.some.inj this).symm

theorem BoundedInteger.text_injective {i i' : BoundedInteger} (h : i.text = i'.text) : i = i' := by
  have hvalue : i.value = i'.value := Text.integerNumeral_injective (String.ofList_injective h)
  cases i
  cases i'
  cases hvalue
  rfl

theorem PlainString.text_injective {s s' : PlainString} (h : s.text = s'.text) : s = s' := by
  cases s
  cases s'
  cases h
  rfl

theorem Literal.raw_injective {l l' : Literal} (h : l.raw = l'.raw) : l = l' := by
  cases l <;> cases l' <;>
    simp only [raw, RawLiteral.bool.injEq, RawLiteral.integer.injEq, RawLiteral.decimal.injEq,
      RawLiteral.string.injEq, reduceCtorEq] at h
  case bool.bool => rw [h]
  case integer.integer => rw [BoundedInteger.text_injective h]
  case decimal.decimal => rw [BoundedDecimal.text_injective h]
  case string.string => rw [PlainString.text_injective h]

theorem Label.ofRaw_injective {r r' : RawLiteral} (h : Label.ofRaw r = Label.ofRaw r') :
    r = r' := by
  cases r <;> cases r' <;> cases h <;> rfl

theorem Phase.raw_injective {value value' : p.Constant} (h : raw value = raw value') :
    value = value' := by
  cases p with
  | parsed => exact h
  | typed => exact Literal.raw_injective h

theorem Phase.ty?_injective {note note' : p.Note} (h : ty? note = ty? note') : note = note' := by
  cases p with
  | parsed => rfl
  | typed => exact Option.some.inj h

theorem Phase.host?_injective {callee callee' : p.Callee} (h : host? callee = host? callee') :
    callee = callee' := by
  cases p with
  | parsed => rfl
  | typed => exact Option.some.inj h

theorem Phase.unplaced_of_showTypeRef {ty ty' : p.TypeRef}
    (h : showTypeRef ty = showTypeRef ty') : TypeRef.unplaced ty = TypeRef.unplaced ty' := by
  cases p with
  | parsed => exact congrArg (Ident.mk · ⟨0, 0⟩) h
  | typed => exact Ty.name_injective h

theorem Ident.unplaced_of_name {x y : Ident} (h : x.name = y.name) : x.unplaced = y.unplaced :=
  congrArg (Ident.mk · ⟨0, 0⟩) h

/-! The printed tree is known from the tree of its outline. -/

theorem Expr.literal_of_rose {value : p.Constant} {span : Span} {note : p.Note} {e : Expr p}
    (h : e.rose = (literal value span note).rose) :
    ∃ value' span' note', e = .literal value' span' note' := by
  cases e with
  | literal value' span' note' => exact ⟨value', span', note', rfl⟩
  | _ =>
    simp only [rose] at h
    generalize Phase.raw value = r at h
    cases r <;> cases h

mutual

theorem Expr.unplaced_of_rose : (e : Expr p) → {e' : Expr p} → e.rose = e'.rose →
    e.unplaced = e'.unplaced
  | .literal value span note, e', h => by
    -- for other nodes the heads differ, or the numbers of parts do
    cases e' with
    | literal value' span' note' =>
      simp only [rose, Rose.node.injEq, Head.node.injEq] at h
      obtain ⟨⟨hvalue, rfl, hnote⟩, -⟩ := h
      rw [Phase.raw_injective (Label.ofRaw_injective hvalue), Phase.ty?_injective hnote]
    | _ => exact absurd (literal_of_rose h.symm) (by simp)
  | .group inner span note, e', h => by
    cases e' with
    | group inner' span' note' =>
      simp only [rose, Rose.node.injEq, Head.node.injEq, List.cons.injEq, true_and, and_true] at h
      obtain ⟨⟨rfl, hnote⟩, hinner⟩ := h
      rw [unplaced, unplaced, inner.unplaced_of_rose hinner, Phase.ty?_injective hnote]
    | literal => exact absurd (literal_of_rose h) (by simp)
    | _ => cases h
  | .binary op lhs rhs span note, e', h => by
    cases e' with
    | binary op' lhs' rhs' span' note' =>
      simp only [rose, Rose.node.injEq, Head.node.injEq, Outline.Label.binary.injEq, List.cons.injEq,
        and_true] at h
      obtain ⟨⟨rfl, rfl, hnote⟩, hlhs, hrhs⟩ := h
      rw [unplaced, unplaced, lhs.unplaced_of_rose hlhs, rhs.unplaced_of_rose hrhs,
        Phase.ty?_injective hnote]
    | literal => exact absurd (literal_of_rose h) (by simp)
    | _ => cases h
  | .var name span note, e', h => by
    cases e' with
    | var name' span' note' =>
      simp only [rose, Rose.node.injEq, Head.node.injEq, Outline.Label.var.injEq, and_true] at h
      obtain ⟨hname, rfl, hnote⟩ := h
      rw [unplaced, unplaced, Ident.unplaced_of_name hname, Phase.ty?_injective hnote]
    | literal => exact absurd (literal_of_rose h) (by simp)
    | _ => cases h
  | .call name args callee span note, e', h => by
    cases e' with
    | call name' args' callee' span' note' =>
      simp only [rose, Rose.node.injEq, Head.node.injEq, Outline.Label.call.injEq] at h
      obtain ⟨⟨⟨hname, hcallee⟩, rfl, hnote⟩, hargs⟩ := h
      rw [unplaced, unplaced, Ident.unplaced_of_name hname, Phase.host?_injective hcallee,
        Phase.ty?_injective hnote, Expr.unplacedAll_of_roseAll args hargs]
    | literal => exact absurd (literal_of_rose h) (by simp)
    | _ => cases h

theorem Expr.unplacedAll_of_roseAll : (es : List (Expr p)) → {es' : List (Expr p)} →
    roseAll es = roseAll es' → unplacedAll es = unplacedAll es'
  | [], [], _ => rfl
  | [], _ :: _, h => by simp [roseAll] at h
  | _ :: _, [], h => by simp [roseAll] at h
  | e :: es, e' :: es', h => by
    simp only [roseAll, List.cons.injEq] at h
    rw [unplacedAll, unplacedAll, e.unplaced_of_rose h.1, Expr.unplacedAll_of_roseAll es h.2]

end

theorem Expr.unplaced_initial_of_rose {initial initial' : Option (Expr p)}
    (h : initial.toList.map Expr.rose = initial'.toList.map Expr.rose) :
    initial.map Expr.unplaced = initial'.map Expr.unplaced := by
  cases initial with
  | none =>
    cases initial' with
    | none => rfl
    | some e' => simp at h
  | some e =>
    cases initial' with
    | none => simp at h
    | some e' =>
      have he : e.rose = e'.rose := by simpa using h
      rw [Option.map_some, Option.map_some, e.unplaced_of_rose he]

/-- An `ELSE` without statements has no row. -/
theorem Stmt.roseAll_of_else {no no' : Block p}
    (h : (if no.isEmpty then [] else [Rose.node Head.no (roseAll no)]) =
      if no'.isEmpty then [] else [Rose.node Head.no (roseAll no')]) : roseAll no = roseAll no' := by
  cases no <;> cases no' <;> simp_all

mutual

theorem Stmt.unplaced_of_rose : (s : Stmt p) → {s' : Stmt p} → s.rose = s'.rose →
    s.unplaced = s'.unplaced
  | .expr value _, s', h => by
    cases s' with
    | expr value' _ =>
      simp only [rose, Rose.node.injEq, List.cons.injEq, true_and, and_true] at h
      rw [unplaced, unplaced, value.unplaced_of_rose h]
    | _ => cases h
  | .declaration name ty initial _, s', h => by
    cases s' with
    | declaration name' ty' initial' _ =>
      simp only [rose, Rose.node.injEq, Head.declaration.injEq] at h
      obtain ⟨⟨hname, hty, -⟩, hinitial⟩ := h
      rw [unplaced, unplaced, Ident.unplaced_of_name hname, Phase.unplaced_of_showTypeRef hty,
        Expr.unplaced_initial_of_rose hinitial]
    | _ => cases h
  | .assignment target value _, s', h => by
    cases s' with
    | assignment target' value' _ =>
      simp only [rose, Rose.node.injEq, Head.assignment.injEq, List.cons.injEq, and_true] at h
      rw [unplaced, unplaced, Ident.unplaced_of_name h.1, value.unplaced_of_rose h.2]
    | _ => cases h
  | .branch condition yes no _, s', h => by
    cases s' with
    | branch condition' yes' no' _ =>
      simp only [rose, Rose.node.injEq, List.cons.injEq, true_and] at h
      obtain ⟨hcondition, hyes, hno⟩ := h
      rw [unplaced, unplaced, condition.unplaced_of_rose hcondition,
        Stmt.unplacedAll_of_roseAll yes hyes, Stmt.unplacedAll_of_roseAll no (roseAll_of_else hno)]
    | _ => cases h
  | .loop condition body _, s', h => by
    cases s' with
    | loop condition' body' _ =>
      simp only [rose, Rose.node.injEq, List.cons.injEq, true_and, and_true] at h
      rw [unplaced, unplaced, condition.unplaced_of_rose h.1,
        Stmt.unplacedAll_of_roseAll body h.2]
    | _ => cases h

theorem Stmt.unplacedAll_of_roseAll : (ss : Block p) → {ss' : Block p} →
    roseAll ss = roseAll ss' → unplacedAll ss = unplacedAll ss'
  | [], [], _ => rfl
  | [], _ :: _, h => by simp [roseAll] at h
  | _ :: _, [], h => by simp [roseAll] at h
  | s :: ss, s' :: ss', h => by
    simp only [roseAll, List.cons.injEq] at h
    rw [unplacedAll, unplacedAll, s.unplaced_of_rose h.1, Stmt.unplacedAll_of_roseAll ss h.2]

end

/-! The places that are not shown make no difference. -/

mutual

theorem Expr.rose_unplaced : (e : Expr p) → e.unplaced.rose = e.rose
  | .literal _ _ _ => rfl
  | .group inner _ _ => by rw [unplaced, rose, rose, inner.rose_unplaced]
  | .binary _ lhs rhs _ _ => by rw [unplaced, rose, rose, lhs.rose_unplaced, rhs.rose_unplaced]
  | .var _ _ _ => rfl
  | .call _ args _ _ _ => by
    rw [unplaced, rose, rose, Expr.roseAll_unplacedAll args]
    rfl

theorem Expr.roseAll_unplacedAll : (es : List (Expr p)) → roseAll (unplacedAll es) = roseAll es
  | [] => rfl
  | e :: es => by
    rw [unplacedAll, roseAll, roseAll, e.rose_unplaced, Expr.roseAll_unplacedAll es]

end

theorem Phase.showTypeRef_unplaced (ty : p.TypeRef) :
    showTypeRef (TypeRef.unplaced ty) = showTypeRef ty := by
  cases p <;> rfl

mutual

theorem Stmt.rose_unplaced : (s : Stmt p) → s.unplaced.rose = s.rose
  | .expr value _ => by rw [unplaced, rose, rose, value.rose_unplaced]
  | .declaration name ty none _ => by
    rw [unplaced, rose, rose, Phase.showTypeRef_unplaced]
    rfl
  | .declaration name ty (some initial) _ => by
    rw [unplaced, rose, rose, Phase.showTypeRef_unplaced]
    simp [initial.rose_unplaced, Ident.unplaced, Ident.mapSpan]
  | .assignment target value _ => by
    rw [unplaced, rose, rose, value.rose_unplaced]
    rfl
  | .branch condition yes no _ => by
    have hempty : (unplacedAll no).isEmpty = no.isEmpty := by cases no <;> rfl
    rw [unplaced, rose, rose, condition.rose_unplaced, Stmt.roseAll_unplacedAll yes,
      Stmt.roseAll_unplacedAll no, hempty]
  | .loop condition body _ => by
    rw [unplaced, rose, rose, condition.rose_unplaced, Stmt.roseAll_unplacedAll body]

theorem Stmt.roseAll_unplacedAll : (ss : Block p) → roseAll (unplacedAll ss) = roseAll ss
  | [] => rfl
  | s :: ss => by
    rw [unplacedAll, roseAll, roseAll, s.rose_unplaced, Stmt.roseAll_unplacedAll ss]

end

theorem Stmt.roseAll_eq_iff {b b' : Block p} :
    roseAll b = roseAll b' ↔ unplacedAll b = unplacedAll b' := by
  refine ⟨Stmt.unplacedAll_of_roseAll b, fun h => ?_⟩
  rw [← Stmt.roseAll_unplacedAll b, h, Stmt.roseAll_unplacedAll b']

end

end LetLang
