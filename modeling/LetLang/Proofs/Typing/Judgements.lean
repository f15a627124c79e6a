import LetLang.Proofs.Text.Prefix
import LetLang.Proofs.Typing.Rules

/-!
The small decisions of the type checker, each against its rule: assignability, operators, literals,
reserved names and the environment that a scope stands for.
-/

namespace LetLang

open Rules

theorem Except.bind_eq_ok_iff {ε α β : Type} {r : Except ε α} {f : α → Except ε β} {b : β} :
    r >>= f = .ok b ↔ ∃ a, r = .ok a ∧ f a = .ok b := by
  cases r <;> simp [bind, Except.bind]

theorem Except.map_eq_ok_iff {ε α β : Type} {r : Except ε α} {f : α → β} {b : β} :
    f <$> r = .ok b ↔ ∃ a, r = .ok a ∧ f a = b := by
  cases r <;> simp [Functor.map, Except.map]

theorem Except.bind_eq_error_iff {ε α β : Type} {r : Except ε α} {f : α → Except ε β} {e : ε} :
    r >>= f = .error e ↔ r = .error e ∨ ∃ a, r = .ok a ∧ f a = .error e := by
  cases r <;> simp [bind, Except.bind]

theorem Except.map_eq_error_iff {ε α β : Type} {r : Except ε α} {f : α → β} {e : ε} :
    f <$> r = .error e ↔ r = .error e := by
  cases r <;> simp [Functor.map, Except.map]

theorem Except.toOption_eq_some_iff {ε α : Type} {r : Except ε α} {a : α} :
    r.toOption = some a ↔ r = .ok a := by
  cases r <;> simp [Except.toOption]

theorem Except.exists_eq_ok {ε α : Type} {r : Except ε α} (h : r.isOk) : ∃ a, r = .ok a := by
  cases r with
  | ok a => exact ⟨a, rfl⟩
  | error e => cases h

namespace Ty

theorem assignable_iff {a b : Ty} : a.assignable b ↔ Assignable a b := by
  refine ⟨?_, ?_⟩
  · intro h
    simp only [assignable, Bool.or_eq_true, Bool.and_eq_true, decide_eq_true_eq] at h
    rcases h with (rfl | ⟨rfl, rfl⟩) | ⟨h, rfl⟩
    · exact .same
    · exact .widened
    · exact .any h
  · rintro (_ | _ | h) <;> simp [assignable, *]

theorem isNumeric_iff {t : Ty} : t.isNumeric ↔ Numeric t := by
  refine ⟨?_, ?_⟩
  · intro h
    simp only [isNumeric, Bool.or_eq_true, decide_eq_true_eq] at h
    rcases h with rfl | rfl <;> constructor
  · rintro (_ | _) <;> rfl

theorem ofName?_eq_some_iff {s : String} {t : Ty} : ofName? s = some t ↔ t.name = s :=
  ⟨name_of_ofName?, fun h => h ▸ ofName?_name t⟩

end Ty

namespace Operator

theorem isEquality_iff {op : Operator} : op.isEquality ↔ op ∈ [.eq, .notEq] := by
  cases op <;> decide

theorem not_isEquality_iff {op : Operator} : ¬ op.isEquality ↔ op ∈ [.add, .sub, .mul, .div] := by
  cases op <;> decide

theorem type?_eq_some_iff {op : Operator} {a b t : Ty} :
    op.type? a b = some t ↔ OperatorTyped op a b t := by
  unfold type?
  split
  · next h =>
    refine ⟨?_, ?_⟩
    · intro ht
      split at ht
      · next hab =>
        obtain rfl := hab.1
        cases ht
        exact .equality (isEquality_iff.1 h) hab.2
      · cases ht
    · rintro (⟨-, hv⟩ | ha | ⟨ha, -⟩)
      · exact if_pos ⟨rfl, hv⟩
      all_goals exact absurd h (not_isEquality_iff.2 ha)
  · next h =>
    have ha := not_isEquality_iff.1 h
    unfold Ty.widen?
    refine ⟨?_, ?_⟩
    · intro ht
      split at ht
      · next hab =>
        obtain ⟨rfl, rfl⟩ := hab
        cases ht
        exact .integer ha
      · next hab =>
        split at ht
        · next hn =>
          cases ht
          have hl := Ty.isNumeric_iff.1 hn.1
          have hr := Ty.isNumeric_iff.1 hn.2
          refine .decimal ha hl hr ?_
          cases hl <;> cases hr <;> simp at hab ⊢
        · cases ht
    · rintro (⟨he, -⟩ | _ | ⟨-, hl, hr, hd⟩)
      · exact absurd (isEquality_iff.2 he) h
      · rfl
      · rw [if_neg, if_pos ⟨Ty.isNumeric_iff.2 hl, Ty.isNumeric_iff.2 hr⟩]
        rintro ⟨rfl, rfl⟩
        simp at hd

end Operator

theorem Text.naturalValue?_eq_some_iff {cs : List Char} {n : Nat} :
    naturalValue? cs = some n ↔ isDigits cs ∧ digitsValue cs = n := by
  unfold naturalValue?
  split <;> simp [*]

theorem Text.integerValue?_eq_some_iff {cs : List Char} {n : Int} :
    integerValue? cs = some n ↔ Spells cs n := by
  have hsign {c : Char} {ds : List Char} (hc : c.isDigit = false) : ¬ isDigits (c :: ds) := by
    simp [isDigits, hc]
  unfold integerValue?
  split
  · next ds =>
    simp only [Option.map_eq_some_iff, naturalValue?_eq_some_iff]
    refine ⟨?_, ?_⟩
    · rintro ⟨_, ⟨hd, rfl⟩, rfl⟩
      exact .plus hd
    · rintro (h | hd)
      · exact absurd h (hsign (by decide))
      · exact ⟨_, ⟨hd, rfl⟩, rfl⟩
  · next ds =>
    simp only [Option.map_eq_some_iff, naturalValue?_eq_some_iff]
    refine ⟨?_, ?_⟩
    · rintro ⟨_, ⟨hd, rfl⟩, rfl⟩
      exact .minus hd
    · rintro (h | _ | hd)
      · exact absurd h (hsign (by decide))
      · exact ⟨_, ⟨hd, rfl⟩, rfl⟩
  · next hplus hminus =>
    simp only [Option.map_eq_some_iff, naturalValue?_eq_some_iff]
    refine ⟨?_, ?_⟩
    · rintro ⟨_, ⟨hd, rfl⟩, rfl⟩
      exact .unsigned hd
    · rintro (hd | hd | hd)
      · exact ⟨_, ⟨hd, rfl⟩, rfl⟩
      · exact absurd rfl (hplus _)
      · exact absurd rfl (hminus _)

/-- Digits alone have no sign. -/
theorem Rules.Spells.eq_digitsValue {cs : List Char} {v : Int} (h : Spells cs v)
    (hd : Text.isDigits cs) : v = Text.digitsValue cs := by
  cases h with
  | unsigned _ => rfl
  | plus _ => exact absurd (Text.isDigit_of_mem hd List.mem_cons_self) (by decide)
  | minus _ => exact absurd (Text.isDigit_of_mem hd List.mem_cons_self) (by decide)

namespace BoundedInteger

theorem ofChars?_eq_some_iff {cs : List Char} {i : BoundedInteger} :
    ofChars? cs = some i ↔ Spells cs i.value := by
  unfold ofChars?
  rw [← Text.integerValue?_eq_some_iff]
  obtain ⟨n, hlo, hhi⟩ := i
  cases Text.integerValue? cs with
  | none => simp
  | some m =>
    simp only [Option.some.injEq]
    split
    · simp
    · next h =>
      refine ⟨nofun, ?_⟩
      rintro rfl
      exact absurd ⟨hlo, hhi⟩ h

end BoundedInteger

namespace BoundedDecimal

theorem ofChars?_eq_some_iff {cs : List Char} {d : BoundedDecimal} :
    ofChars? cs = some d ↔ ∃ whole, cs = whole ++ '.' :: d.fraction ∧ Text.isDigits whole ∧
      Text.digitsValue whole = d.whole := by
  obtain ⟨n, fraction, hn, hf⟩ := d
  unfold ofChars?
  by_cases hpoint : '.' ∈ cs
  · obtain ⟨whole, after, rfl, hw⟩ := List.eq_append_cons_of_mem hpoint
    simp only [Text.takeWhile_ne hw, Text.dropWhile_ne hw]
    refine ⟨?_, ?_⟩
    · intro h
      split at h
      · next hd =>
        split at h
        · cases h
          exact ⟨whole, rfl, hd, rfl⟩
        · cases h
      · cases h
    · rintro ⟨whole', he, hd, rfl⟩
      obtain ⟨rfl, rfl⟩ := Text.append_cons_injective hw (Text.point_not_mem hd) he
      rw [if_pos hd, dif_pos ⟨hn, hf⟩]
  · simp only [Text.dropWhile_ne_nil hpoint]
    refine ⟨nofun, ?_⟩
    rintro ⟨whole, rfl, -⟩
    simp at hpoint

end BoundedDecimal

theorem PlainString.ofString_eq_ok_iff {text : String} {s : PlainString} :
    ofString text = .ok s ↔ text = s.text := by
  unfold ofString
  split
  · next c h =>
    refine ⟨nofun, ?_⟩
    rintro rfl
    have := List.find?_some h
    simp [List.all_eq_true.1 s.all_allowed c (List.mem_of_find?_eq_some h)] at this
  · obtain ⟨text', hs⟩ := s
    simp

namespace RawLiteral

theorem check_eq_ok_iff {raw : RawLiteral} {l : Literal} :
    raw.check = .ok l ↔ LiteralTyped raw l := by
  cases raw with
  | bool b =>
    simp only [check, Except.ok.injEq]
    refine ⟨?_, ?_⟩
    · rintro rfl
      exact .bool
    · rintro ⟨⟩
      rfl
  | integer digits =>
    simp only [check]
    refine ⟨?_, ?_⟩
    · intro h
      split at h
      · next i hi =>
        cases h
        exact .integer (BoundedInteger.ofChars?_eq_some_iff.1 hi)
      · cases h
    · rintro (_ | h)
      simp only [BoundedInteger.ofChars?_eq_some_iff.2 h]
  | decimal digits =>
    simp only [check]
    refine ⟨?_, ?_⟩
    · intro h
      split at h
      · next d hd =>
        cases h
        obtain ⟨whole, hcs, hw, hv⟩ := BoundedDecimal.ofChars?_eq_some_iff.1 hd
        exact .decimal hcs hw hv
      · cases h
    · rintro (_ | _ | ⟨hcs, hw, hv⟩)
      simp only [BoundedDecimal.ofChars?_eq_some_iff.2 ⟨_, hcs, hw, hv⟩]
  | string contents =>
    simp only [check]
    refine ⟨?_, ?_⟩
    · intro h
      split at h
      · next s hs =>
        cases h
        rw [PlainString.ofString_eq_ok_iff.1 hs]
        exact .string
      · cases h
    · rintro ⟨⟩
      simp only [PlainString.ofString_eq_ok_iff.2 rfl]

end RawLiteral

theorem Signature.qualifier?_eq_some_iff {s : Signature} {x : String} :
    s.qualifier? = some x ↔ ∃ rest, s.host.toList = x.toList ++ '.' :: rest ∧ '.' ∉ x.toList := by
  unfold qualifier?
  by_cases hpoint : '.' ∈ s.host.toList
  · obtain ⟨before, after, he, hb⟩ := List.eq_append_cons_of_mem hpoint
    dsimp only
    rw [if_pos (by simpa using hpoint), he, Text.takeWhile_ne hb, Option.some.injEq]
    refine ⟨?_, ?_⟩
    · rintro rfl
      exact ⟨after, by simp, by simpa using hb⟩
    · rintro ⟨rest, he', hx⟩
      rw [(Text.append_cons_injective hb hx he').1, String.ofList_toList]
  · dsimp only
    rw [if_neg (by simpa using hpoint)]
    refine ⟨nofun, ?_⟩
    rintro ⟨rest, he, -⟩
    simp [he] at hpoint

theorem Catalog.isReserved_iff {catalog : Catalog} {x : String} :
    catalog.isReserved x ↔ HostReserved catalog x := by
  simp only [isReserved, Bool.or_eq_true, List.contains_eq_mem, decide_eq_true_eq, List.any_eq_true,
    beq_iff_eq, Signature.qualifier?_eq_some_iff, Table.mem_values_iff]
  refine ⟨?_, ?_⟩
  · rintro (h | ⟨s, ⟨⟨name, arity⟩, hs⟩, rest, he, hx⟩)
    · exact .word h
    · exact .qualifier hs he hx
  · rintro (h | ⟨hs, he, hx⟩)
    · exact .inl h
    · exact .inr ⟨_, ⟨_, hs⟩, _, he, hx⟩

namespace Env

theorem sees_iff {env : Env} {x : String} {t : Ty} :
    env.Sees x t ↔ (env.here x).or (env.outside x) = some t := by
  rw [Option.or_eq_some_iff]
  refine ⟨?_, ?_⟩
  · rintro (h | ⟨h, h'⟩)
    · exact .inl h
    · exact .inr ⟨h, h'⟩
  · rintro (h | ⟨h, h'⟩)
    · exact .here h
    · exact .outside h h'

theorem sees_bind_iff {env : Env} {x y : String} {t u : Ty} :
    (env.bind x t).Sees y u ↔ if y = x then t = u else env.Sees y u := by
  rw [sees_iff, sees_iff, bind]
  dsimp only
  split <;> simp

theorem sees_nested_iff {env : Env} {x : String} {t : Ty} :
    env.nested.Sees x t ↔ env.Sees x t := by
  rw [sees_iff, sees_iff]
  rfl

/-- What the names of a scope stand for. -/
def ofScope (s : Scope) : Env := ⟨s.local?, fun x => s.outer.findSome? (·.get? x)⟩

@[simp] theorem here_ofScope (s : Scope) (x : String) : (ofScope s).here x = s.local? x := rfl

theorem sees_ofScope_iff {s : Scope} {x : String} {t : Ty} :
    (ofScope s).Sees x t ↔ s.lookup? x = some t := by
  rw [sees_iff, Scope.lookup?_eq]
  rfl

@[simp] theorem ofScope_define (s : Scope) (x : String) (t : Ty) :
    ofScope (s.define x t) = (ofScope s).bind x t := by
  ext y : 2
  · simp only [ofScope, bind, Scope.local?, Scope.define, Table.get?_insert]
  · rfl

@[simp] theorem ofScope_enter (s : Scope) : ofScope s.enter = (ofScope s).nested := by
  ext y : 2
  · rfl
  · exact Scope.lookup?_eq s y

end Env

end LetLang
