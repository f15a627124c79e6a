import LetLang.Proofs.Tree.Alike
import LetLang.Typing

/-!
Typing does not look at spans. Trees that differ in their spans only have typed trees that differ in
their spans only, or the same error at corresponding places, and leave the same scope.
-/

namespace LetLang

/-- Two results that are alike, or the same error at related places. -/
inductive TypeResult.Like (R : Span → Span → Prop) {α : Type} (Same : α → α → Prop) :
    TypeResult α → TypeResult α → Prop
  | ok {a b : α} : Same a b → Like R Same (.ok a) (.ok b)
  | error {s s' : Span} {e : TypeError} : R s s' → Like R Same (.error ⟨s, e⟩) (.error ⟨s', e⟩)

namespace TypeResult.Like

variable {R : Span → Span → Prop} {α β : Type} {Same : α → α → Prop} {Same' : β → β → Prop}
  {r r' : TypeResult α}

theorem bind {f g : α → TypeResult β} (h : Like R Same r r')
    (hf : ∀ a b, Same a b → Like R Same' (f a) (g b)) : Like R Same' (r >>= f) (r' >>= g) := by
  cases h with
  | ok h => exact hf _ _ h
  | error h => exact .error h

theorem map {f g : α → β} (h : Like R Same r r') (hf : ∀ a b, Same a b → Same' (f a) (g b)) :
    Like R Same' (f <$> r) (g <$> r') := by
  cases h with
  | ok h => exact .ok (hf _ _ h)
  | error h => exact .error h

end TypeResult.Like

/-- The same for results with the scope after them, which is one scope. -/
inductive TypeResult.LikeIn (R : Span → Span → Prop) {α : Type} (Same : α → α → Prop) :
    TypeResult α × Scope → TypeResult α × Scope → Prop
  | ok {a b : α} {scope : Scope} : Same a b → LikeIn R Same (.ok a, scope) (.ok b, scope)
  | error {s s' : Span} {e : TypeError} {scope : Scope} :
      R s s' → LikeIn R Same (.error ⟨s, e⟩, scope) (.error ⟨s', e⟩, scope)

section LikeIn

variable {R : Span → Span → Prop} {α : Type} {Same : α → α → Prop}

theorem TypeResult.Like.inScope {r r' : TypeResult α} (scope : Scope) (h : Like R Same r r') :
    LikeIn R Same (r, scope) (r', scope) := by
  cases h with
  | ok h => exact .ok h
  | error h => exact .error h

theorem TypeResult.LikeIn.result {q q' : TypeResult α × Scope} (h : LikeIn R Same q q') :
    Like R Same q.1 q'.1 := by
  cases h with
  | ok h => exact .ok h
  | error h => exact .error h

end LikeIn

namespace Typing

variable {catalog : Catalog} {scope : Scope} {R : Span → Span → Prop}

mutual

theorem expr_alike {e e' : Expr .parsed} : e.Like (.places R) e' →
    TypeResult.Like R (Expr.Like (.places R)) (expr catalog scope e) (expr catalog scope e')
  | @Expr.Like.literal _ _ raw _ _ _ _ rfl hs => by
    simp only [expr]
    cases raw.check with
    | ok l => exact .ok (.literal rfl hs)
    | error e => exact .error hs
  | .group h hs => by
    simp only [expr]
    refine (expr_alike h).bind fun a b hab => ?_
    rw [Expr.ty, hab.note_eq]
    exact .ok (.group hab hs)
  | @Expr.Like.binary _ _ op _ _ _ _ _ _ _ hl hr hs => by
    simp only [expr]
    refine (expr_alike hl).bind fun l l' hl => (expr_alike hr).bind fun r r' hr => ?_
    rw [Expr.ty, Expr.ty, hl.note_eq, hr.note_eq]
    cases op.type? l'.note r'.note with
    | some t => exact .ok (.binary hl hr hs)
    | none => exact .error hs
  | @Expr.Like.var _ _ x y _ _ _ hx hs => by
    simp only [expr, hx.1]
    cases scope.lookup? y.name with
    | some t => exact .ok (.var hx hs)
    | none => exact .error hx.2
  | @Expr.Like.call _ _ x y args args' _ _ _ _ hx hargs hs => by
    simp only [expr, hx.1, hargs.length_eq]
    cases catalog.function? y.name args'.length with
    | none => exact .error hs
    | some signature =>
      exact (arguments_alike hargs signature.params).bind fun _ _ hargs => .ok (.call hx hargs hs)

theorem arguments_alike {es es' : List (Expr .parsed)} : Expr.LikeAll (.places R) es es' →
    (params : List Ty) → TypeResult.Like R (Expr.LikeAll (.places R))
      (arguments catalog scope es params) (arguments catalog scope es' params)
  | .nil, _ => by
    simp only [arguments]
    exact .ok .nil
  | .cons _ _, [] => by
    simp only [arguments]
    exact .ok .nil
  | .cons h hes, param :: params => by
    simp only [arguments]
    refine (expr_alike h).bind fun a b hab => ?_
    rw [Expr.ty, hab.note_eq]
    split
    · exact (arguments_alike hes params).bind fun _ _ hes => .ok (.cons hab hes)
    · exact .error hab.span

end

theorem value_alike {e e' : Expr .parsed} (h : e.Like (.places R) e') (target : Ty) :
    TypeResult.Like R (Expr.Like (.places R)) (value catalog scope target e)
      (value catalog scope target e') := by
  refine (expr_alike h).bind fun a b hab => ?_
  rw [Expr.ty, hab.note_eq]
  split
  · exact .ok hab
  · exact .error hab.span

theorem condition_alike {e e' : Expr .parsed} (h : e.Like (.places R) e') :
    TypeResult.Like R (Expr.Like (.places R)) (condition catalog scope e)
      (condition catalog scope e') := by
  refine (expr_alike h).bind fun a b hab => ?_
  rw [Expr.ty, hab.note_eq]
  split
  · exact .ok hab
  · exact .error hab.span

theorem declaredType_alike {x y ty ty' : Ident} (hx : x.Like R y) (hty : ty.Like R ty') :
    TypeResult.Like R Eq (declaredType catalog x ty) (declaredType catalog y ty') := by
  simp only [declaredType, hx.1, hty.1]
  split
  · exact .error hx.2
  · split
    · exact .error hty.2
    · exact .error hty.2
    · exact .ok rfl

theorem initialValue_alike {initial initial' : Option (Expr .parsed)}
    (h : Option.Rel (Expr.Like (.places R)) initial initial') (target : Ty) :
    TypeResult.Like R (Option.Rel (Expr.Like (.places R)))
      (initialValue catalog scope target initial) (initialValue catalog scope target initial') := by
  cases h with
  | none => exact .ok .none
  | some h => exact (value_alike h target).map fun _ _ hab => .some hab

theorem declaration_alike {x y ty ty' : Ident} {initial initial' : Option (Expr .parsed)}
    {s s' : Span} (hx : x.Like R y) (hty : ty.Like R ty')
    (hinitial : Option.Rel (Expr.Like (.places R)) initial initial') (hs : R s s') :
    TypeResult.LikeIn R (Stmt.Like (.places R)) (declaration catalog scope x ty initial s)
      (declaration catalog scope y ty' initial' s') := by
  have htype : TypeResult.Like R Eq (declaredType catalog x ty) (declaredType catalog y ty') :=
    declaredType_alike hx hty
  unfold declaration
  generalize declaredType catalog x ty = q, declaredType catalog y ty' = q' at htype ⊢
  cases htype with
  | error h => exact .error h
  | @ok t t' ht =>
    have hinitial : TypeResult.Like R (Option.Rel (Expr.Like (.places R)))
        (initialValue catalog scope t' initial) (initialValue catalog scope t' initial') :=
      initialValue_alike hinitial t'
    rw [ht]
    dsimp only [bind, Except.bind]
    generalize initialValue catalog scope t' initial = q,
      initialValue catalog scope t' initial' = q' at hinitial ⊢
    cases hinitial with
    | error h => exact .error h
    | ok hi =>
      dsimp only [pure, Except.pure]
      rw [hx.1]
      split
      · exact .error hx.2
      · exact .ok (.declaration hx rfl hi hs)

mutual

theorem stmt_alike {scope : Scope} {s s' : Stmt .parsed} : s.Like (.places R) s' →
    TypeResult.LikeIn R (Stmt.Like (.places R)) (stmt catalog scope s) (stmt catalog scope s')
  | .expr h hs => by
    simp only [stmt, h.isCall_eq]
    refine TypeResult.Like.inScope scope ?_
    split
    · exact (expr_alike h).map fun _ _ hab => .expr hab hs
    · exact .error h.span
  | .declaration hx hty hinitial hs => by
    simp only [stmt]
    exact declaration_alike hx hty hinitial hs
  | @Stmt.Like.assignment _ _ x y _ _ _ _ hx h hs => by
    simp only [stmt, hx.1]
    refine TypeResult.Like.inScope scope ?_
    cases scope.lookup? y.name with
    | none => exact .error hx.2
    | some t => exact (value_alike h t).map fun _ _ hab => .assignment hx hab hs
  | .branch hc hyes hno hs => by
    simp only [stmt, hyes.isEmpty_eq]
    refine TypeResult.Like.inScope scope ((condition_alike hc).bind fun _ _ hc => ?_)
    split
    · exact .error hs
    · exact (block_alike hyes).result.bind fun _ _ hyes =>
        (block_alike hno).result.bind fun _ _ hno => .ok (.branch hc hyes hno hs)
  | .loop hc hbody hs => by
    simp only [stmt]
    refine TypeResult.Like.inScope scope ((condition_alike hc).bind fun _ _ hc => ?_)
    exact (block_alike hbody).result.bind fun _ _ hbody => .ok (.loop hc hbody hs)

theorem block_alike {scope : Scope} {ss ss' : Block .parsed} : Stmt.LikeAll (.places R) ss ss' →
    TypeResult.LikeIn R (Stmt.LikeAll (.places R)) (block catalog scope ss)
      (block catalog scope ss')
  | .nil => by
    simp only [block]
    exact .ok .nil
  | @Stmt.LikeAll.cons _ _ s s' ss ss' h hss => by
    have hs : TypeResult.LikeIn R (Stmt.Like (.places R)) (stmt catalog scope s)
        (stmt catalog scope s') := stmt_alike h
    simp only [block]
    generalize stmt catalog scope s = q, stmt catalog scope s' = q' at hs ⊢
    cases hs with
    | error h => exact .error h
    | @ok _ _ mid h =>
      -- the rest is typed in the same scope, since the first statements leave the same one
      have hrest : TypeResult.LikeIn R (Stmt.LikeAll (.places R)) (block catalog mid ss)
          (block catalog mid ss') := block_alike hss
      dsimp only
      generalize block catalog mid ss = q, block catalog mid ss' = q' at hrest ⊢
      cases hrest with
      | error h => exact .error h
      | ok hss => exact .ok (.cons h hss)

end

theorem program_alike {scope : Scope} {ss ss' : Block .parsed} (hne : ss ≠ [])
    (h : Stmt.LikeAll (.places R) ss ss') :
    TypeResult.LikeIn R (Stmt.LikeAll (.places R)) (program catalog scope ss)
      (program catalog scope ss') := by
  have hfull : ¬ ss.isEmpty := by simpa using hne
  rw [program, program, ← h.isEmpty_eq, if_neg hfull, if_neg hfull]
  exact block_alike h

end Typing

end LetLang
