import LetLang.Proofs.Tree.Places
import Mathlib.Data.List.Forall2

/-!
Trees of the same shape, and among them those that differ in their spans only. A relation of places
is carried from the lexemes of a tree to all of its nodes, if it is kept where spans are joined. So
the same words at other places have the same tree, with each node at the place that corresponds to
its own.
-/

namespace LetLang

/-! Trees of the same shape. -/

/-- The same name, at related places. -/
def Ident.Like (R : Span → Span → Prop) (x y : Ident) : Prop := x.name = y.name ∧ R x.span y.span

/-- Only the name of a type has a place. -/
def Phase.TypeRef.Like (R : Span → Span → Prop) : {p : Phase} → p.TypeRef → p.TypeRef → Prop
  | .parsed, x, y => Ident.Like R x y
  | .typed, t, u => t = u

/-- What two trees may differ in. -/
structure Likeness (p : Phase) where
  span : Span → Span → Prop
  typeRef : p.TypeRef → p.TypeRef → Prop
  constant : p.Constant → p.Constant → Prop

/-- The same but for places, which are related. -/
def Likeness.places (R : Span → Span → Prop) {p : Phase} : Likeness p :=
  ⟨R, Phase.TypeRef.Like R, Eq⟩

mutual

/-- The same nodes, with all that is not compared by `L` equal. -/
inductive Expr.Like {p : Phase} (L : Likeness p) : Expr p → Expr p → Prop
  | literal {value value' : p.Constant} {note : p.Note} {s s' : Span} :
      L.constant value value' → L.span s s' →
      Like L (.literal value s note) (.literal value' s' note)
  | group {e e' : Expr p} {note : p.Note} {s s' : Span} :
      Like L e e' → L.span s s' → Like L (.group e s note) (.group e' s' note)
  | binary {op : Operator} {l l' r r' : Expr p} {note : p.Note} {s s' : Span} :
      Like L l l' → Like L r r' → L.span s s' →
      Like L (.binary op l r s note) (.binary op l' r' s' note)
  | var {x y : Ident} {note : p.Note} {s s' : Span} :
      x.Like L.span y → L.span s s' → Like L (.var x s note) (.var y s' note)
  | call {x y : Ident} {args args' : List (Expr p)} {callee : p.Callee} {note : p.Note}
      {s s' : Span} :
      x.Like L.span y → LikeAll L args args' → L.span s s' →
      Like L (.call x args callee s note) (.call y args' callee s' note)

inductive Expr.LikeAll {p : Phase} (L : Likeness p) : List (Expr p) → List (Expr p) → Prop
  | nil : LikeAll L [] []
  | cons {e e' : Expr p} {es es' : List (Expr p)} :
      Like L e e' → LikeAll L es es' → LikeAll L (e :: es) (e' :: es')

end

mutual

inductive Stmt.Like {p : Phase} (L : Likeness p) : Stmt p → Stmt p → Prop
  | expr {e e' : Expr p} {s s' : Span} :
      e.Like L e' → L.span s s' → Like L (.expr e s) (.expr e' s')
  | declaration {x y : Ident} {ty ty' : p.TypeRef} {initial initial' : Option (Expr p)}
      {s s' : Span} :
      x.Like L.span y → L.typeRef ty ty' → Option.Rel (Expr.Like L) initial initial' →
      L.span s s' → Like L (.declaration x ty initial s) (.declaration y ty' initial' s')
  | assignment {x y : Ident} {e e' : Expr p} {s s' : Span} :
      x.Like L.span y → e.Like L e' → L.span s s' →
      Like L (.assignment x e s) (.assignment y e' s')
  | branch {c c' : Expr p} {yes yes' no no' : Block p} {s s' : Span} :
      c.Like L c' → LikeAll L yes yes' → LikeAll L no no' → L.span s s' →
      Like L (.branch c yes no s) (.branch c' yes' no' s')
  | loop {c c' : Expr p} {body body' : Block p} {s s' : Span} :
      c.Like L c' → LikeAll L body body' → L.span s s' →
      Like L (.loop c body s) (.loop c' body' s')

inductive Stmt.LikeAll {p : Phase} (L : Likeness p) : Block p → Block p → Prop
  | nil : LikeAll L [] []
  | cons {s s' : Stmt p} {ss ss' : Block p} :
      Like L s s' → LikeAll L ss ss' → LikeAll L (s :: ss) (s' :: ss')

end

section Alike

variable {p : Phase} {L : Likeness p}

theorem Expr.Like.span {e e' : Expr p} (h : e.Like L e') : L.span e.span e'.span := by
  cases h <;> assumption

theorem Expr.Like.note_eq {e e' : Expr p} (h : e.Like L e') : e.note = e'.note := by
  cases h <;> rfl

theorem Expr.Like.isCall_eq {e e' : Expr p} (h : e.Like L e') : e.isCall = e'.isCall := by
  cases h <;> rfl

theorem Expr.LikeAll.length_eq {es es' : List (Expr p)} :
    LikeAll L es es' → es.length = es'.length
  | .nil => rfl
  | .cons _ h => congrArg Nat.succ h.length_eq

theorem Stmt.LikeAll.isEmpty_eq {ss ss' : Block p} (h : LikeAll L ss ss') :
    ss.isEmpty = ss'.isEmpty := by
  cases h <;> rfl

end Alike

/-! Spans replaced by others. -/

def Ident.mapSpan (f : Span → Span) (x : Ident) : Ident := { x with span := f x.span }

def Phase.TypeRef.mapSpan (f : Span → Span) : {p : Phase} → p.TypeRef → p.TypeRef
  | .parsed, x => Ident.mapSpan f x
  | .typed, t => t

namespace Expr

variable {p : Phase} (f : Span → Span)

mutual

def mapSpan : Expr p → Expr p
  | literal value s note => .literal value (f s) note
  | group inner s note => .group inner.mapSpan (f s) note
  | binary op lhs rhs s note => .binary op lhs.mapSpan rhs.mapSpan (f s) note
  | var x s note => .var (x.mapSpan f) (f s) note
  | call x args callee s note => .call (x.mapSpan f) (mapSpanAll args) callee (f s) note

def mapSpanAll : List (Expr p) → List (Expr p)
  | [] => []
  | e :: es => e.mapSpan :: mapSpanAll es

end

end Expr

namespace Stmt

variable {p : Phase} (f : Span → Span)

mutual

def mapSpan : Stmt p → Stmt p
  | expr e s => .expr (e.mapSpan f) (f s)
  | declaration x ty initial s =>
    .declaration (x.mapSpan f) (Phase.TypeRef.mapSpan f ty) (initial.map (Expr.mapSpan f)) (f s)
  | assignment x e s => .assignment (x.mapSpan f) (e.mapSpan f) (f s)
  | branch c yes no s => .branch (c.mapSpan f) (mapSpanAll yes) (mapSpanAll no) (f s)
  | loop c body s => .loop (c.mapSpan f) (mapSpanAll body) (f s)

def mapSpanAll : Block p → Block p
  | [] => []
  | s :: ss => s.mapSpan :: mapSpanAll ss

end

end Stmt

/-! A tree whose spans are known from those of another is known from it. -/

section Known

variable {R : Span → Span → Prop} {p : Phase} {f : Span → Span}

theorem Ident.Like.eq_mapSpan (hR : ∀ s s', R s s' → s' = f s) {x y : Ident} (h : x.Like R y) :
    y = x.mapSpan f := by
  obtain ⟨name, span⟩ := y
  obtain ⟨hname, hspan⟩ := h
  have hspan : span = f x.span := hR _ _ hspan
  have hname : x.name = name := hname
  rw [Ident.mapSpan, hspan, hname]

theorem Phase.TypeRef.Like.eq_mapSpan (hR : ∀ s s', R s s' → s' = f s) :
    {p : Phase} → {ty ty' : p.TypeRef} → Phase.TypeRef.Like R ty ty' → ty' = mapSpan f ty
  | .parsed, _, _, h => Ident.Like.eq_mapSpan hR h
  | .typed, _, _, h => h.symm

mutual

theorem Expr.Like.eq_mapSpan (hR : ∀ s s', R s s' → s' = f s) {e e' : Expr p} :
    e.Like (.places R) e' → e' = e.mapSpan f
  | .literal rfl hs => by rw [Expr.mapSpan, hR _ _ hs]
  | .group h hs => by rw [Expr.mapSpan, h.eq_mapSpan hR, hR _ _ hs]
  | .binary hl hr hs => by rw [Expr.mapSpan, hl.eq_mapSpan hR, hr.eq_mapSpan hR, hR _ _ hs]
  | .var hx hs => by rw [Expr.mapSpan, hx.eq_mapSpan hR, hR _ _ hs]
  | .call hx hargs hs => by rw [Expr.mapSpan, hx.eq_mapSpan hR, hargs.eq_mapSpan hR, hR _ _ hs]

theorem Expr.LikeAll.eq_mapSpan (hR : ∀ s s', R s s' → s' = f s) {es es' : List (Expr p)} :
    Expr.LikeAll (.places R) es es' → es' = Expr.mapSpanAll f es
  | .nil => rfl
  | .cons h hes => by rw [Expr.mapSpanAll, h.eq_mapSpan hR, hes.eq_mapSpan hR]

end

mutual

theorem Stmt.Like.eq_mapSpan (hR : ∀ s s', R s s' → s' = f s) {s s' : Stmt p} :
    s.Like (.places R) s' → s' = s.mapSpan f
  | .expr h hs => by rw [Stmt.mapSpan, h.eq_mapSpan hR, hR _ _ hs]
  | .declaration hx hty hinitial hs => by
    rw [Stmt.mapSpan, hx.eq_mapSpan hR, hty.eq_mapSpan hR, hR _ _ hs]
    cases hinitial with
    | none => rfl
    | some h => rw [h.eq_mapSpan hR, Option.map_some]
  | .assignment hx h hs => by rw [Stmt.mapSpan, hx.eq_mapSpan hR, h.eq_mapSpan hR, hR _ _ hs]
  | .branch hc hyes hno hs => by
    rw [Stmt.mapSpan, hc.eq_mapSpan hR, hyes.eq_mapSpan hR, hno.eq_mapSpan hR, hR _ _ hs]
  | .loop hc hbody hs => by
    rw [Stmt.mapSpan, hc.eq_mapSpan hR, hbody.eq_mapSpan hR, hR _ _ hs]

theorem Stmt.LikeAll.eq_mapSpan (hR : ∀ s s', R s s' → s' = f s) {ss ss' : Block p} :
    Stmt.LikeAll (.places R) ss ss' → ss' = Stmt.mapSpanAll f ss
  | .nil => rfl
  | .cons h hss => by rw [Stmt.mapSpanAll, h.eq_mapSpan hR, hss.eq_mapSpan hR]

end

end Known

/-! The same words at other places. -/

/-- Where two spans have a join, so have the spans related to them. -/
def Span.Joins (R : Span → Span → Prop) : Prop :=
  ∀ a a' b b' s, R a a' → R b b' → a.join? b = some s → ∃ s', a'.join? b' = some s' ∧ R s s'

namespace Lexeme

variable {R : Span → Span → Prop} {ts us vs : List Lexeme}

/-- The same spelling, at related places. -/
def Like (R : Span → Span → Prop) (t u : Lexeme) : Prop :=
  t.spelling = u.spelling ∧ R t.span u.span

abbrev LikeAll (R : Span → Span → Prop) : List Lexeme → List Lexeme → Prop :=
  List.Forall₂ (Like R)

theorem LikeAll.of_nil (h : LikeAll R [] us) : us = [] := List.forall₂_nil_left_iff.1 h

theorem LikeAll.of_cons {s : Spelling} {here : Span} (h : LikeAll R (⟨s, here⟩ :: ts) us) :
    ∃ there vs, us = ⟨s, there⟩ :: vs ∧ R here there ∧ LikeAll R ts vs := by
  obtain ⟨⟨s', there⟩, vs, ⟨hs, hspan⟩, hts, rfl⟩ := List.forall₂_cons_left_iff.1 h
  have hs : s = s' := hs
  exact ⟨there, vs, by rw [hs], hspan, hts⟩

theorem LikeAll.of_append (h : LikeAll R (ts ++ us) vs) :
    ∃ ts' us', vs = ts' ++ us' ∧ LikeAll R ts ts' ∧ LikeAll R us us' := by
  induction ts generalizing vs with
  | nil => exact ⟨[], vs, rfl, .nil, h⟩
  | cons t ts ih =>
    obtain ⟨t', vs', ht, hvs, rfl⟩ := List.forall₂_cons_left_iff.1 h
    obtain ⟨ts', us', rfl, hts, hus⟩ := ih hvs
    exact ⟨t' :: ts', us', rfl, .cons ht hts, hus⟩

/-- A lexeme after others is the last one. -/
theorem LikeAll.of_concat {s : Spelling} {here : Span} (h : LikeAll R (ts ++ [⟨s, here⟩]) us) :
    ∃ vs there, us = vs ++ [⟨s, there⟩] ∧ LikeAll R ts vs ∧ R here there := by
  obtain ⟨vs, rest, rfl, hts, hrest⟩ := h.of_append
  obtain ⟨there, rest, rfl, hspan, hnil⟩ := hrest.of_cons
  obtain rfl := hnil.of_nil
  exact ⟨vs, there, rfl, hts, hspan⟩

end Lexeme

section Carried

variable {R : Span → Span → Prop}

mutual

theorem ExprAt.alike (hR : Span.Joins R) {n : Nat} {ts us : List Lexeme} {e : Expr .parsed} :
    ExprAt n ts e → Lexeme.LikeAll R ts us → ∃ e', ExprAt n us e' ∧ e.Like (.places R) e'
  | .tighter h, hus => by
    obtain ⟨e', h', he⟩ := h.alike hR hus
    exact ⟨e', h'.tighter, he⟩
  | .chain hop hl hr hjoin, hus => by
    obtain ⟨ls, rest, rfl, hls, hrest⟩ := hus.of_append
    obtain ⟨there, rs, rfl, -, hrs⟩ := hrest.of_cons
    obtain ⟨l', hl', hl⟩ := hl.alike hR hls
    obtain ⟨r', hr', hr⟩ := hr.alike hR hrs
    obtain ⟨s', hjoin', hs⟩ := hR _ _ _ _ _ hl.span hr.span hjoin
    exact ⟨_, .chain hop hl' hr' hjoin', .binary hl hr hs⟩
  | @ExprAt.literal ⟨s, here⟩ _ hv, hus => by
    obtain ⟨there, rest, rfl, hs, hnil⟩ := hus.of_cons
    obtain rfl := hnil.of_nil
    exact ⟨_, .literal (t := ⟨s, there⟩) hv, .literal rfl hs⟩
  | .var, hus => by
    obtain ⟨there, rest, rfl, hs, hnil⟩ := hus.of_cons
    obtain rfl := hnil.of_nil
    exact ⟨_, .var, .var ⟨rfl, hs⟩ hs⟩
  | .call hargs hjoin, hus => by
    obtain ⟨there, rest, rfl, hx, hrest⟩ := hus.of_cons
    obtain ⟨opening, rest, rfl, -, hrest⟩ := hrest.of_cons
    obtain ⟨vs, close, rfl, hvs, hclose⟩ := hrest.of_concat
    obtain ⟨args', hargs', hargs⟩ := hargs.alike hR hvs
    obtain ⟨s', hjoin', hs⟩ := hR _ _ _ _ _ hx hclose hjoin
    exact ⟨_, .call hargs' hjoin', .call ⟨rfl, hx⟩ hargs hs⟩
  | .group h hjoin, hus => by
    obtain ⟨opening, rest, rfl, hopening, hrest⟩ := hus.of_cons
    obtain ⟨vs, close, rfl, hvs, hclose⟩ := hrest.of_concat
    obtain ⟨e', h', he⟩ := h.alike hR hvs
    obtain ⟨s', hjoin', hs⟩ := hR _ _ _ _ _ hopening hclose hjoin
    exact ⟨_, .group h' hjoin', .group he hs⟩

theorem ArgumentsAt.alike (hR : Span.Joins R) {ts us : List Lexeme} {es : List (Expr .parsed)} :
    ArgumentsAt ts es → Lexeme.LikeAll R ts us →
    ∃ es', ArgumentsAt us es' ∧ Expr.LikeAll (.places R) es es'
  | .nil, hus => by
    obtain rfl := hus.of_nil
    exact ⟨[], .nil, .nil⟩
  | .last h, hus => by
    obtain ⟨e', h', he⟩ := h.alike hR hus
    exact ⟨[e'], .last h', .cons he .nil⟩
  | .more h hmore, hus => by
    obtain ⟨vs, rest, rfl, hvs, hrest⟩ := hus.of_append
    obtain ⟨comma, rest, rfl, -, hrest⟩ := hrest.of_cons
    obtain ⟨e', h', he⟩ := h.alike hR hvs
    obtain ⟨es', hmore', hes⟩ := hmore.alike hR hrest
    cases hes with
    | cons he₂ hes => exact ⟨_, .more h' hmore', .cons he (.cons he₂ hes)⟩

end

theorem InitialAt.alike (hR : Span.Joins R) {ts us : List Lexeme}
    {initial : Option (Expr .parsed)} (h : InitialAt ts initial) (hus : Lexeme.LikeAll R ts us) :
    ∃ initial', InitialAt us initial' ∧ Option.Rel (Expr.Like (.places R)) initial initial' := by
  cases h with
  | none =>
    obtain rfl := hus.of_nil
    exact ⟨_, .none, .none⟩
  | some h =>
    obtain ⟨assign, rest, rfl, -, hrest⟩ := hus.of_cons
    obtain ⟨e', h', he⟩ := h.alike hR hrest
    exact ⟨_, .some h', .some he⟩

mutual

theorem StmtAt.alike (hR : Span.Joins R) {ts us : List Lexeme} {s : Stmt .parsed} :
    StmtAt ts s → Lexeme.LikeAll R ts us → ∃ s', StmtAt us s' ∧ s.Like (.places R) s'
  | .expr h hjoin, hus => by
    obtain ⟨vs, stop, rfl, hvs, hstop⟩ := hus.of_concat
    obtain ⟨e', h', he⟩ := h.alike hR hvs
    obtain ⟨s', hjoin', hs⟩ := hR _ _ _ _ _ he.span hstop hjoin
    exact ⟨_, .expr h' hjoin', .expr he hs⟩
  | .declaration h hjoin, hus => by
    obtain ⟨start, rest, rfl, hstart, hrest⟩ := hus.of_cons
    obtain ⟨here, rest, rfl, hx, hrest⟩ := hrest.of_cons
    obtain ⟨colon, rest, rfl, -, hrest⟩ := hrest.of_cons
    obtain ⟨there, rest, rfl, hty, hrest⟩ := hrest.of_cons
    obtain ⟨vs, stop, rfl, hvs, hstop⟩ := hrest.of_concat
    obtain ⟨initial', h', hinitial⟩ := h.alike hR hvs
    obtain ⟨s', hjoin', hs⟩ := hR _ _ _ _ _ hstart hstop hjoin
    exact ⟨_, .declaration h' hjoin', .declaration ⟨rfl, hx⟩ ⟨rfl, hty⟩ hinitial hs⟩
  | .assignment h hjoin, hus => by
    obtain ⟨here, rest, rfl, hx, hrest⟩ := hus.of_cons
    obtain ⟨assign, rest, rfl, -, hrest⟩ := hrest.of_cons
    obtain ⟨vs, stop, rfl, hvs, hstop⟩ := hrest.of_concat
    obtain ⟨e', h', he⟩ := h.alike hR hvs
    obtain ⟨s', hjoin', hs⟩ := hR _ _ _ _ _ hx hstop hjoin
    exact ⟨_, .assignment h' hjoin', .assignment ⟨rfl, hx⟩ he hs⟩
  | .branch hc hyes hno hjoin, hus => by
    obtain ⟨start, rest, rfl, hstart, hrest⟩ := hus.of_cons
    obtain ⟨cs, rest, rfl, hcs, hrest⟩ := hrest.of_append
    obtain ⟨then', rest, rfl, -, hrest⟩ := hrest.of_cons
    obtain ⟨ys, rest, rfl, hys, hrest⟩ := hrest.of_append
    obtain ⟨ns, stop, rfl, hns, hstop⟩ := hrest.of_concat
    obtain ⟨c', hc', hc⟩ := hc.alike hR hcs
    obtain ⟨yes', hyes', hyes⟩ := hyes.alike hR hys
    obtain ⟨no', hno', hno⟩ := hno.alike hR hns
    obtain ⟨s', hjoin', hs⟩ := hR _ _ _ _ _ hstart hstop hjoin
    exact ⟨_, .branch hc' hyes' hno' hjoin', .branch hc hyes hno hs⟩
  | .loop hc hbody hjoin, hus => by
    obtain ⟨start, rest, rfl, hstart, hrest⟩ := hus.of_cons
    obtain ⟨cs, rest, rfl, hcs, hrest⟩ := hrest.of_append
    obtain ⟨do', rest, rfl, -, hrest⟩ := hrest.of_cons
    obtain ⟨bs, stop, rfl, hbs, hstop⟩ := hrest.of_concat
    obtain ⟨c', hc', hc⟩ := hc.alike hR hcs
    obtain ⟨body', hbody', hbody⟩ := hbody.alike hR hbs
    obtain ⟨s', hjoin', hs⟩ := hR _ _ _ _ _ hstart hstop hjoin
    exact ⟨_, .loop hc' hbody' hjoin', .loop hc hbody hs⟩

theorem ElseAt.alike (hR : Span.Joins R) {ts us : List Lexeme} {ss : Block .parsed} :
    ElseAt ts ss → Lexeme.LikeAll R ts us →
    ∃ ss', ElseAt us ss' ∧ Stmt.LikeAll (.places R) ss ss'
  | .none, hus => by
    obtain rfl := hus.of_nil
    exact ⟨[], .none, .nil⟩
  | .some h, hus => by
    obtain ⟨start, rest, rfl, -, hrest⟩ := hus.of_cons
    obtain ⟨ss', h', hss⟩ := h.alike hR hrest
    exact ⟨ss', .some h', hss⟩

/-- The same words at related places are the same block at related places. -/
theorem BlockAt.alike (hR : Span.Joins R) {ts us : List Lexeme} {ss : Block .parsed} :
    BlockAt ts ss → Lexeme.LikeAll R ts us →
    ∃ ss', BlockAt us ss' ∧ Stmt.LikeAll (.places R) ss ss'
  | .nil, hus => by
    obtain rfl := hus.of_nil
    exact ⟨[], .nil, .nil⟩
  | .cons h hss, hus => by
    obtain ⟨vs, rest, rfl, hvs, hrest⟩ := hus.of_append
    obtain ⟨s', h', hs⟩ := h.alike hR hvs
    obtain ⟨ss', hss', hss⟩ := hss.alike hR hrest
    exact ⟨_, .cons h' hss', .cons hs hss⟩

end

end Carried

end LetLang
