import LetLang.Proofs.Typing.Judgements

/-!
The type checker accepts exactly what the rules derive, and gives the typed tree and the environment
of the derivation. It goes through the statements with one scope, which always stands for the
environment the rules have reached; the scopes of inner blocks are dropped, as their environments
are.
-/

namespace LetLang.Typing

open Rules

variable {catalog : Catalog}

mutual

theorem expr_eq_ok_iff (scope : Scope) : (e : Expr .parsed) → {e' : Expr .typed} →
    (expr catalog scope e = .ok e' ↔ ExprTyped catalog (.ofScope scope) e e')
  | .literal raw span _, e' => by
    simp only [expr]
    refine ⟨?_, ?_⟩
    · intro h
      split at h
      · next l hl =>
        cases h
        exact .literal (RawLiteral.check_eq_ok_iff.1 hl)
      · cases h
    · rintro ⟨h⟩
      simp only [RawLiteral.check_eq_ok_iff.2 h]
  | .group e span _, e' => by
    simp only [expr, Except.bind_eq_ok_iff, expr_eq_ok_iff scope e]
    refine ⟨?_, ?_⟩
    · rintro ⟨e', h, ⟨⟩⟩
      exact .group h
    · rintro (_ | h)
      exact ⟨_, h, rfl⟩
  | .binary op l r span _, e' => by
    simp only [expr, Except.bind_eq_ok_iff, expr_eq_ok_iff scope l, expr_eq_ok_iff scope r]
    refine ⟨?_, ?_⟩
    · rintro ⟨l', hl, r', hr, h⟩
      split at h
      · next t ht =>
        cases h
        exact .binary hl hr (Operator.type?_eq_some_iff.1 ht)
      · cases h
    · rintro (_ | _ | ⟨hl, hr, ht⟩)
      exact ⟨_, hl, _, hr, by rw [Operator.type?_eq_some_iff.2 ht]; rfl⟩
  | .var x span _, e' => by
    simp only [expr]
    refine ⟨?_, ?_⟩
    · intro h
      split at h
      · next t ht =>
        cases h
        exact .var (Env.sees_ofScope_iff.2 ht)
      · cases h
    · rintro (_ | _ | _ | h)
      simp only [Env.sees_ofScope_iff.1 h]
  | .call x args _ span _, e' => by
    simp only [expr]
    refine ⟨?_, ?_⟩
    · intro h
      split at h
      · cases h
      · next s hs =>
        obtain ⟨args', ha, ⟨⟩⟩ := Except.bind_eq_ok_iff.1 h
        exact .call hs ((arguments_eq_ok_iff scope args (catalog.arity_eq hs)).1 ha)
    · rintro (_ | _ | _ | _ | ⟨hs, ha⟩)
      simp only [hs, (arguments_eq_ok_iff scope args (catalog.arity_eq hs)).2 ha]
      rfl

theorem arguments_eq_ok_iff (scope : Scope) : (args : List (Expr .parsed)) → {params : List Ty} →
    {args' : List (Expr .typed)} → params.length = args.length →
    (arguments catalog scope args params = .ok args' ↔
      ArgumentsTyped catalog (.ofScope scope) args params args')
  | [], [], args', _ => by
    simp only [arguments, Except.ok.injEq]
    refine ⟨?_, ?_⟩
    · rintro rfl
      exact .nil
    · rintro ⟨⟩
      rfl
  | arg :: args, param :: params, args', hlen => by
    simp only [arguments, Except.bind_eq_ok_iff, expr_eq_ok_iff scope arg]
    refine ⟨?_, ?_⟩
    · rintro ⟨arg', harg, h⟩
      split at h
      · next ht =>
        obtain ⟨args', ha, ⟨⟩⟩ := Except.bind_eq_ok_iff.1 h
        exact .cons harg (Ty.assignable_iff.1 ht)
          ((arguments_eq_ok_iff scope args (Nat.succ.inj hlen)).1 ha)
      · cases h
    · rintro (_ | ⟨harg, ht, ha⟩)
      refine ⟨_, harg, ?_⟩
      rw [if_pos (Ty.assignable_iff.2 ht),
        (arguments_eq_ok_iff scope args (Nat.succ.inj hlen)).2 ha]
      rfl

end

theorem value_eq_ok_iff {scope : Scope} {target : Ty} {e : Expr .parsed} {e' : Expr .typed} :
    value catalog scope target e = .ok e' ↔
      ExprTyped catalog (.ofScope scope) e e' ∧ Assignable e'.ty target := by
  simp only [value, Except.bind_eq_ok_iff, expr_eq_ok_iff, ← Ty.assignable_iff]
  refine ⟨?_, ?_⟩
  · rintro ⟨e', h, ht⟩
    split at ht
    · next hs =>
      cases ht
      exact ⟨h, hs⟩
    · cases ht
  · rintro ⟨h, hs⟩
    exact ⟨e', h, if_pos hs⟩

theorem condition_eq_ok_iff {scope : Scope} {e : Expr .parsed} {e' : Expr .typed} :
    condition catalog scope e = .ok e' ↔
      ExprTyped catalog (.ofScope scope) e e' ∧ e'.ty = .boolean := by
  simp only [condition, Except.bind_eq_ok_iff, expr_eq_ok_iff]
  refine ⟨?_, ?_⟩
  · rintro ⟨e', h, ht⟩
    split at ht
    · next hb =>
      cases ht
      exact ⟨h, hb⟩
    · cases ht
  · rintro ⟨h, hb⟩
    exact ⟨e', h, if_pos hb⟩

theorem declaredType_eq_ok_iff {name ty : Ident} {t : Ty} :
    declaredType catalog name ty = .ok t ↔
      ¬ HostReserved catalog name.name ∧ t.name = ty.name ∧ t ≠ .void := by
  unfold declaredType
  rw [← Catalog.isReserved_iff]
  split
  · next h => exact ⟨nofun, fun h' => absurd h h'.1⟩
  · next h =>
    split
    · next ho =>
      refine ⟨nofun, fun h' => ?_⟩
      rw [Ty.ofName?_eq_some_iff.2 h'.2.1] at ho
      cases ho
    · next ho =>
      refine ⟨nofun, fun h' => ?_⟩
      rw [Ty.ofName?_eq_some_iff.2 h'.2.1] at ho
      exact absurd (Option.some.inj ho) h'.2.2
    · next t' hv ho =>
      refine ⟨?_, ?_⟩
      · rintro ⟨⟩
        exact ⟨h, Ty.ofName?_eq_some_iff.1 ho, hv⟩
      · rintro ⟨-, ht, -⟩
        rw [Ty.ofName?_eq_some_iff.2 ht] at ho
        rw [Option.some.inj ho]

theorem initialValue_eq_ok_iff {scope : Scope} {target : Ty} {initial : Option (Expr .parsed)}
    {initial' : Option (Expr .typed)} :
    initialValue catalog scope target initial = .ok initial' ↔
      InitialTyped catalog (.ofScope scope) target initial initial' := by
  cases initial with
  | none =>
    simp only [initialValue, Except.ok.injEq]
    refine ⟨?_, ?_⟩
    · rintro rfl
      exact .none
    · rintro ⟨⟩
      rfl
  | some e =>
    simp only [initialValue, Except.map_eq_ok_iff, value_eq_ok_iff]
    refine ⟨?_, ?_⟩
    · rintro ⟨e', ⟨he, ht⟩, rfl⟩
      exact .some he ht
    · rintro (_ | ⟨he, ht⟩)
      exact ⟨_, ⟨he, ht⟩, rfl⟩

/-- The checker gives a result and leaves a scope that stands for the environment. -/
def Gives {α : Type} (r : TypeResult α × Scope) (a : α) (env : Env) : Prop :=
  r.1 = .ok a ∧ Env.ofScope r.2 = env

theorem checked_eq_ok_iff {scope : Scope} {name ty : Ident} {initial : Option (Expr .parsed)}
    {t : Ty} {initial' : Option (Expr .typed)} :
    (do
      let t ← declaredType catalog name ty
      let initial ← initialValue catalog scope t initial
      return (t, initial)) = Except.ok (t, initial') ↔
      (¬ HostReserved catalog name.name ∧ t.name = ty.name ∧ t ≠ .void) ∧
        InitialTyped catalog (.ofScope scope) t initial initial' := by
  simp only [Except.bind_eq_ok_iff, declaredType_eq_ok_iff, initialValue_eq_ok_iff]
  refine ⟨?_, ?_⟩
  · rintro ⟨t, ht, initial', hi, ⟨⟩⟩
    exact ⟨ht, hi⟩
  · rintro ⟨ht, hi⟩
    exact ⟨t, ht, initial', hi, rfl⟩

theorem declaration_gives_iff {scope : Scope} {name ty : Ident} {initial : Option (Expr .parsed)}
    {span : Span} {s' : Stmt .typed} {env : Env} :
    Gives (declaration catalog scope name ty initial span) s' env ↔
      StmtTyped catalog (.ofScope scope) (.declaration name ty initial span) s' env := by
  unfold declaration Gives
  dsimp only
  split
  · next f hf =>
    refine ⟨?_, ?_⟩
    · rintro ⟨⟨⟩, -⟩
    · rintro (_ | ⟨hr, hn, hv, hi, -⟩)
      rw [checked_eq_ok_iff.2 ⟨⟨hr, hn, hv⟩, hi⟩] at hf
      cases hf
  · next t initial' hc =>
    refine ⟨?_, ?_⟩
    · rintro ⟨h, rfl⟩
      split at h
      · cases h
      · next hl =>
        cases h
        obtain ⟨⟨hr, hn, hv⟩, hi⟩ := checked_eq_ok_iff.1 hc
        rw [Env.ofScope_define]
        exact .declaration hr hn hv hi (by simpa using hl)
    · rintro (_ | ⟨hr, hn, hv, hi, hl⟩)
      rw [checked_eq_ok_iff.2 ⟨⟨hr, hn, hv⟩, hi⟩] at hc
      cases hc
      have hl' : ¬ (scope.local? name.name).isSome := by simpa using hl
      exact ⟨if_neg hl', Env.ofScope_define ..⟩

mutual

theorem stmt_gives_iff (scope : Scope) : (s : Stmt .parsed) → {s' : Stmt .typed} → {env : Env} →
    (Gives (stmt catalog scope s) s' env ↔ StmtTyped catalog (.ofScope scope) s s' env)
  | .expr e span, s', env => by
    simp only [stmt, Gives]
    refine ⟨?_, ?_⟩
    · rintro ⟨h, rfl⟩
      split at h
      · next hc =>
        obtain ⟨e', he, rfl⟩ := Except.map_eq_ok_iff.1 h
        exact .expr hc (expr_eq_ok_iff scope e |>.1 he)
      · cases h
    · rintro ⟨hc, he⟩
      refine ⟨?_, rfl⟩
      rw [if_pos hc, (expr_eq_ok_iff scope e).2 he]
      rfl
  | .declaration name ty initial span, s', env => declaration_gives_iff
  | .assignment target e span, s', env => by
    simp only [stmt, Gives]
    refine ⟨?_, ?_⟩
    · rintro ⟨h, rfl⟩
      split at h
      · cases h
      · next t ht =>
        obtain ⟨e', he, rfl⟩ := Except.map_eq_ok_iff.1 h
        obtain ⟨he, hs⟩ := value_eq_ok_iff.1 he
        exact .assignment (Env.sees_ofScope_iff.2 ht) he hs
    · rintro (_ | _ | ⟨ht, he, hs⟩)
      refine ⟨?_, rfl⟩
      simp only [Env.sees_ofScope_iff.1 ht, value_eq_ok_iff.2 ⟨he, hs⟩]
      rfl
  | .branch c yes no span, s', env => by
    simp only [stmt, Gives, Except.bind_eq_ok_iff, condition_eq_ok_iff]
    refine ⟨?_, ?_⟩
    · rintro ⟨⟨c', ⟨hc, hb⟩, h⟩, rfl⟩
      split at h
      · cases h
      · next hne =>
        obtain ⟨yes', hyes, h⟩ := Except.bind_eq_ok_iff.1 h
        obtain ⟨no', hno, ⟨⟩⟩ := Except.bind_eq_ok_iff.1 h
        have hyes := (block_gives_iff scope.enter yes).1 ⟨hyes, rfl⟩
        have hno := (block_gives_iff scope.enter no).1 ⟨hno, rfl⟩
        rw [Env.ofScope_enter] at hyes hno
        exact .branch hc hb (by simpa using hne) hyes hno
    · rintro (_ | _ | _ | ⟨hc, hb, hne, hyes, hno⟩)
      rw [← Env.ofScope_enter] at hyes hno
      refine ⟨⟨_, ⟨hc, hb⟩, ?_⟩, rfl⟩
      rw [if_neg (by simpa using hne), ((block_gives_iff scope.enter yes).2 hyes).1,
        ((block_gives_iff scope.enter no).2 hno).1]
      rfl
  | .loop c body span, s', env => by
    simp only [stmt, Gives, Except.bind_eq_ok_iff, condition_eq_ok_iff]
    refine ⟨?_, ?_⟩
    · rintro ⟨⟨c', ⟨hc, hb⟩, body', hbody, ⟨⟩⟩, rfl⟩
      have hbody := (block_gives_iff scope.enter body).1 ⟨hbody, rfl⟩
      rw [Env.ofScope_enter] at hbody
      exact .loop hc hb hbody
    · rintro (_ | _ | _ | _ | ⟨hc, hb, hbody⟩)
      rw [← Env.ofScope_enter] at hbody
      exact ⟨⟨_, ⟨hc, hb⟩, _, ((block_gives_iff scope.enter body).2 hbody).1, rfl⟩, rfl⟩

theorem block_gives_iff (scope : Scope) : (b : Block .parsed) → {b' : Block .typed} → {env : Env} →
    (Gives (block catalog scope b) b' env ↔ BlockTyped catalog (.ofScope scope) b b' env)
  | [], b', env => by
    simp only [block, Gives]
    refine ⟨?_, ?_⟩
    · rintro ⟨⟨⟩, rfl⟩
      exact .nil
    · rintro ⟨⟩
      exact ⟨rfl, rfl⟩
  | s :: ss, b', env => by
    have hs {s' mid} : Gives (stmt catalog scope s) s' mid ↔ _ := stmt_gives_iff scope s
    simp only [block]
    rcases hr : stmt catalog scope s with ⟨f | s', scope'⟩
    · rw [hr] at hs
      refine ⟨?_, ?_⟩
      · rintro ⟨⟨⟩, -⟩
      · rintro (_ | ⟨h, -⟩)
        cases (hs.2 h).1
    · rw [hr] at hs
      have hss {ss' env'} : Gives (block catalog scope' ss) ss' env' ↔ _ :=
        block_gives_iff scope' ss
      dsimp only
      rcases hr' : block catalog scope' ss with ⟨f | ss', scope''⟩
      · rw [hr'] at hss
        refine ⟨?_, ?_⟩
        · rintro ⟨⟨⟩, -⟩
        · rintro (_ | ⟨h, h'⟩)
          obtain ⟨-, rfl⟩ := hs.2 h
          cases (hss.2 h').1
      · rw [hr'] at hss
        refine ⟨?_, ?_⟩
        · rintro ⟨⟨⟩, rfl⟩
          exact .cons (hs.1 ⟨rfl, rfl⟩) (hss.1 ⟨rfl, rfl⟩)
        · rintro (_ | ⟨h, h'⟩)
          obtain ⟨⟨⟩, rfl⟩ := hs.2 h
          obtain ⟨⟨⟩, rfl⟩ := hss.2 h'
          exact ⟨rfl, rfl⟩

end

theorem block_of_program {scope : Scope} {b : Block .parsed} {b' : Block .typed}
    (h : (program catalog scope b).1 = .ok b') : (block catalog scope b).1 = .ok b' := by
  unfold program at h
  split at h
  · cases h
  · exact h

/-- Every program, catalog and initial scope: the checker gives a typed tree, and leaves an
environment, if and only if the program is not empty and the rules derive both for it. -/
theorem program_gives_iff (catalog : Catalog) (scope : Scope) (b : Block .parsed)
    (b' : Block .typed) (env : Env) :
    ((program catalog scope b).1 = .ok b' ∧ Env.ofScope (program catalog scope b).2 = env) ↔
      ProgramTyped catalog (.ofScope scope) b b' env := by
  unfold ProgramTyped
  rw [← block_gives_iff]
  cases b with
  | nil =>
    refine ⟨?_, ?_⟩
    · rintro ⟨⟨⟩, -⟩
    · exact fun h => absurd rfl h.1
  | cons s ss => exact ⟨fun h => ⟨List.cons_ne_nil _ _, h⟩, And.right⟩

end LetLang.Typing
