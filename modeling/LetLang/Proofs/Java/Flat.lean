import LetLang.Java
import LetLang.Proofs.Text.Prefix
import LetLang.Proofs.Tree.Nodes
import LetLang.Proofs.Typing.Rules

/-! Texts without braces and line breaks. Names have none, host names are assumed to have none, and
neither has a literal, since a string may not hold them. So no expression has any. -/

namespace LetLang

/-- All names within the node are such names. -/
def Node.Names (P : String → Prop) (n : Node) : Prop := ∀ x, (Node.name x).Within [n] → P x.name

namespace Node.Names

variable {P : String → Prop} {n m : Node}

theorem self {x : Ident} (h : (Node.name x).Names P) : P x.name :=
  h x (.root (List.mem_singleton.2 rfl))

theorem part (h : n.Names P) (hm : m ∈ n.parts) : m.Names P := by
  intro x hx
  apply h
  exact hx.of_part hm

theorem args {x : Ident} {as : List (Expr .parsed)} {span : Span}
    (h : (Node.expr (.call x as () span ())).Names P) : ∀ arg ∈ as, (Node.expr arg).Names P := by
  intro arg harg
  exact h.part (List.mem_cons_of_mem _ (List.mem_map_of_mem harg))

end Node.Names

namespace Java

open Rules

def isFlat (c : Char) : Bool := c ≠ '\x7b' && c ≠ '\x7d' && c ≠ '\n'

def Flat (cs : List Char) : Prop := ∀ c ∈ cs, isFlat c

instance (cs : List Char) : Decidable (Flat cs) :=
  decidable_of_iff (cs.all isFlat = true) List.all_eq_true

/-- What a line may start with. -/
structure Body (cs : List Char) : Prop where
  flat : Flat cs
  head : cs.head?.any (· ≠ ' ')

theorem Flat.append {cs ds : List Char} (h : Flat cs) (h' : Flat ds) : Flat (cs ++ ds) :=
  List.forall_mem_append.2 ⟨h, h'⟩

theorem Body.append {cs ds : List Char} (h : Body cs) (h' : Flat ds) : Body (cs ++ ds) where
  flat := h.flat.append h'
  head := by
    have hhead := h.head
    cases cs with
    | nil => cases hhead
    | cons c cs => exact hhead

theorem flat_of_forall {p : Char → Bool} {cs : List Char} (h : ∀ c ∈ cs, p c)
    (hp : ['\x7b', '\x7d', '\n'].any p = false) : Flat cs := by
  intro c hc
  simp only [List.any_cons, List.any_nil, Bool.or_false, Bool.or_eq_false_iff] at hp
  obtain ⟨hopen, hclose, hbreak⟩ := hp
  have hne : ∀ d, p d = false → c ≠ d := by
    rintro d hd rfl
    rw [h c hc] at hd
    cases hd
  simp [isFlat, hne _ hopen, hne _ hclose, hne _ hbreak]

theorem flat_of_isDigits {cs : List Char} (h : Text.isDigits cs) : Flat cs :=
  flat_of_forall (fun _ hc => Text.isDigit_of_mem h hc) (by decide)

theorem flat_integerNumeral (n : Int) : Flat (Text.integerNumeral n) := by
  cases n with
  | ofNat n => exact flat_of_isDigits (Text.isDigits_numeral n)
  | negSucc n =>
    have hsign : Flat ['-'] := by decide
    exact hsign.append (flat_of_isDigits (Text.isDigits_numeral (n + 1)))

theorem flat_escape {cs : List Char} (h : Flat cs) : Flat (cs.flatMap escape) := by
  intro d hd
  obtain ⟨c, hc, hd⟩ := List.mem_flatMap.1 hd
  rw [escape] at hd
  split at hd
  · rcases List.mem_cons.1 hd with rfl | hd
    · decide
    · rw [List.mem_singleton.1 hd]
      exact h c hc
  · rw [List.mem_singleton.1 hd]
    exact h c hc

theorem flat_literal (l : LetLang.Literal) : Flat (literal l).toList := by
  cases l with
  | bool b => cases b <;> decide
  | integer i =>
    rw [literal, BoundedInteger.text, String.toList_ofList]
    exact flat_integerNumeral i.value
  | decimal d =>
    rw [literal, BoundedDecimal.text, String.toList_ofList]
    have hpoint : Flat ['.'] := by decide
    exact (flat_of_isDigits (Text.isDigits_numeral d.whole)).append
      (hpoint.append (flat_of_isDigits d.isDigits_fraction))
  | string s =>
    have hquote : Flat ['"'] := by decide
    have hcontents : Flat s.text.toList :=
      flat_of_forall (List.all_eq_true.1 s.all_allowed) (by decide)
    rw [literal, String.toList_ofList]
    exact (hquote.append (flat_escape hcontents)).append hquote

theorem flat_intercalate {texts : List String} (h : ∀ t ∈ texts, Flat t.toList) :
    Flat (", ".intercalate texts).toList := by
  induction texts with
  | nil => decide
  | cons t ts ih =>
    obtain ⟨ht, hts⟩ := List.forall_mem_cons.1 h
    cases ts with
    | nil => rwa [String.intercalate_singleton]
    | cons u us =>
      have hcomma : Flat ", ".toList := by decide
      rw [String.intercalate_cons_cons, String.toList_append, String.toList_append]
      exact (ht.append hcomma).append (ih hts)

/-! Host names. -/

/-- A name that is not empty, has no spaces and no line breaks in it, and no braces. -/
def IsHostName (x : String) : Prop := x ≠ "" ∧ Flat x.toList ∧ ' ' ∉ x.toList

instance (x : String) : Decidable (IsHostName x) :=
  inferInstanceAs (Decidable (x ≠ "" ∧ Flat x.toList ∧ ' ' ∉ x.toList))

/-- Letters, digits, low lines and points are fine. -/
theorem isHostName_of_dotted {x : String} (hne : x ≠ "")
    (hx : ∀ c ∈ x.toList, Lexer.isNameChar c || c = '.') : IsHostName x := by
  refine ⟨hne, flat_of_forall hx (by decide), ?_⟩
  intro hspace
  exact absurd (hx ' ' hspace) (by decide)

theorem IsHostName.body {x : String} (h : IsHostName x) : Body x.toList where
  flat := h.2.1
  head := by
    obtain ⟨hne, -, hspace⟩ := h
    cases hcs : x.toList with
    | nil => exact absurd (String.toList_eq_nil_iff.1 hcs) hne
    | cons c cs =>
      rw [hcs] at hspace
      have hc := List.ne_of_not_mem_cons hspace
      simpa using hc.symm

/-- The names that the catalog gives to types and functions are host names. -/
structure HostNamed (catalog : Catalog) : Prop where
  function : ∀ {name arity s}, catalog.function? name arity = some s → IsHostName s.host
  type : ∀ t, IsHostName (catalog.hostType t)

namespace HostNamed

theorem bare : HostNamed .bare where
  function := nofun
  type t := by cases t <;> decide

theorem define {catalog : Catalog} (h : HostNamed catalog) (name : String) {s : Signature}
    (hs : IsHostName s.host) : HostNamed (catalog.define name s) where
  function := by
    intro name' arity s' h'
    rw [Catalog.function?_define] at h'
    split at h'
    · rwa [← Option.some.inj h']
    · exact h.function h'
  type := h.type

theorem standard : HostNamed .standard :=
  bare
    |>.define "print" (by decide)
    |>.define "abs" (by decide)
    |>.define "sqrt" (by decide)
    |>.define "min" (by decide)
    |>.define "max" (by decide)

end HostNamed

/-! Expressions. -/

theorem flat_operator (op : Operator) : Flat op.spelling.toList := by
  cases op <;> decide

/-- A name that a line may start with. -/
def IsTidy (x : String) : Prop := Body x.toList

theorem isTidy_of_isWord {x : String} (h : Lexer.IsWord .identifier x.toList) : IsTidy x := by
  apply IsHostName.body
  generalize hcs : x.toList = cs at h
  have hne : x ≠ "" := by
    rintro rfl
    obtain ⟨c, rest, rfl, -⟩ := h.startsWord
    cases hcs
  apply isHostName_of_dotted hne
  rw [hcs]
  generalize hk : TokenKind.identifier = k at h
  cases h with
  | identifier hc hrest =>
    rw [Lexer.isNameStart, Bool.or_eq_true] at hc
    refine List.forall_mem_cons.2 ⟨?_, fun d hd => by simp [hrest d hd]⟩
    rcases hc with hc | hc <;> simp [Lexer.isNameChar, Char.isAlphanum, hc]
  | _ => cases hk

variable {catalog : Catalog} {env : Env}

/-- A call starts with the name of its function. -/
theorem body_call {x : Ident} {args : List (Expr .typed)} {host : String} {span : Span} {t : Ty}
    (hhost : IsHostName host) (hargs : ∀ text ∈ exprs args, Flat text.toList) :
    Body (expr (.call x args host span t)).toList := by
  have hopen : Flat "(".toList := by decide
  have hclose : Flat ")".toList := by decide
  simp only [expr, String.toList_append]
  exact ((hhost.body.append hopen).append (flat_intercalate hargs)).append hclose

mutual

theorem flat_expr (hcatalog : HostNamed catalog) : {e : Expr .parsed} → {e' : Expr .typed} →
    ExprTyped catalog env e e' → (Node.expr e).Names IsTidy → Flat (expr e').toList
  | _, _, .literal _, _ => flat_literal _
  | _, _, .group h, hnames => by
    have hopen : Flat "(".toList := by decide
    have hclose : Flat ")".toList := by decide
    have hinner := flat_expr hcatalog h (hnames.part (List.mem_singleton.2 rfl))
    rw [expr, String.toList_append, String.toList_append]
    exact (hopen.append hinner).append hclose
  | _, _, @ExprTyped.binary _ _ op _ _ _ _ _ _ hl hr _, hnames => by
    have hspace : Flat " ".toList := by decide
    have hlhs := flat_expr hcatalog hl (hnames.part List.mem_cons_self)
    have hrhs := flat_expr hcatalog hr
      (hnames.part (List.mem_cons_of_mem _ (List.mem_singleton.2 rfl)))
    simp only [expr, String.toList_append]
    exact (((hlhs.append hspace).append (flat_operator op)).append hspace).append hrhs
  | _, _, .var _, hnames => (hnames.part (List.mem_singleton.2 rfl)).self.flat
  | _, _, .call hs hargs, hnames =>
    (body_call (hcatalog.function hs) (flat_exprs hcatalog hargs hnames.args)).flat

theorem flat_exprs (hcatalog : HostNamed catalog) : {es : List (Expr .parsed)} → {ts : List Ty} →
    {es' : List (Expr .typed)} → ArgumentsTyped catalog env es ts es' →
    (∀ e ∈ es, (Node.expr e).Names IsTidy) → ∀ text ∈ exprs es', Flat text.toList
  | _, _, _, .nil, _ => nofun
  | _, _, _, .cons h _ hes, hnames => by
    obtain ⟨hname, hrest⟩ := List.forall_mem_cons.1 hnames
    exact List.forall_mem_cons.2 ⟨flat_expr hcatalog h hname, flat_exprs hcatalog hes hrest⟩

end

end Java

end LetLang
