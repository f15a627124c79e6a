import LetLang.Proofs.Java.Printing

/-!
Printed expressions. No parentheses are added to a tree, so what says which term the words are is
the derivation that the expression was read by, and typing has kept its shape.
-/

namespace LetLang.Java

open Rules

mutual

/-- A typed expression as a term. -/
def term : Expr .typed → Term
  | .literal l _ _ => .literal (constant l)
  | .group inner _ _ => .group (term inner)
  | .binary op lhs rhs _ _ => .binary op (term lhs) (term rhs)
  | .var name _ _ => .name name.name
  | .call _ args host _ _ => .call host (terms args)

def terms : List (Expr .typed) → List Term
  | [] => []
  | e :: es => term e :: terms es

end

theorem isWord_of_identifier {cs : List Char} (h : Lexer.IsWord .identifier cs) :
    IsWord .word cs := by
  generalize hk : TokenKind.identifier = k at h
  cases h with
  | identifier hc hcs =>
    refine .word ?_ fun d hd => ?_
    · simp only [Lexer.isNameStart, Bool.or_eq_true, decide_eq_true_eq] at hc
      simp [isWordStart, hc]
    · have hpart := hcs d hd
      simp only [Lexer.isNameChar, Bool.or_eq_true, decide_eq_true_eq] at hpart
      simp [isWordPart, hpart]
  | _ => cases hk

/-- The keywords of Java are among the reserved words. -/
theorem isName_of_not_reserved {catalog : Catalog} {x : String}
    (hx : Lexer.IsWord .identifier x.toList) (hr : ¬ HostReserved catalog x) : IsName x := by
  have hall : ∀ k ∈ keywords, k ∈ reservedWords := by decide
  exact ⟨isWord_of_identifier hx, fun hk => hr (.word (hall x hk))⟩

/-- Functions have dotted names in Java, and values have types there. -/
structure Hosted (catalog : Catalog) : Prop where
  dotted : ∀ {name arity s}, catalog.function? name arity = some s → ∃ hs, Grammar.Dotted hs s.host
  isType : ∀ {t}, t ≠ .void → IsType (catalog.hostType t)

namespace Hosted

theorem bare : Hosted .bare where
  dotted := nofun
  isType := by
    intro t ht
    cases t with
    | void => exact absurd rfl ht
    | string => exact .inr (by decide)
    | any => exact .inr (by decide)
    | _ => exact .inl (by decide)

theorem define {catalog : Catalog} (h : Hosted catalog) {name : String} {s : Signature}
    (hs : ∃ ws, Grammar.Dotted ws s.host) : Hosted (catalog.define name s) where
  dotted := by
    intro name' arity s' h'
    rw [Catalog.function?_define] at h'
    split at h'
    · rwa [← Option.some.inj h']
    · exact h.dotted h'
  isType := h.isType

theorem standard : Hosted .standard := by
  have hmath : ∀ x ∈ ["abs", "sqrt", "min", "max"],
      ∃ ws, Grammar.Dotted ws ("Math" ++ "." ++ x) := by
    intro x hx
    have hall : ∀ x ∈ ["abs", "sqrt", "min", "max"], IsName x := by decide
    exact ⟨_, .more (by decide) (.last (hall x hx))⟩
  have hprint : ∃ ws, Grammar.Dotted ws ("System" ++ "." ++ ("out" ++ "." ++ "println")) :=
    ⟨_, .more (by decide) (.more (by decide) (.last (by decide)))⟩
  exact ((((bare.define hprint).define (hmath "abs" (by decide))).define
    (hmath "sqrt" (by decide))).define (hmath "min" (by decide))).define (hmath "max" (by decide))

end Hosted

/-! What an expression is printed as. Its words are taken in the grammar it was read by. -/

theorem layer_le_three : {n : Nat} → {ws : List Word} → {b : Bare.Expr} →
    LetLang.Grammar.Layer n ws b → n ≤ 3
  | _, _, _, @LetLang.Grammar.Layer.chain op _ _ _ _ _ hop _ _ => by
    have := op.layer_le
    omega
  | _, _, _, .tighter h => Nat.le_of_succ_le (layer_le_three h)
  | _, _, _, .primary _ => Nat.le_refl 3

/-- Names that are seen are names in Java. -/
def Named (env : Env) : Prop := ∀ x t, env.Sees x t → IsName x

variable {catalog : Catalog} {env : Env}

theorem Named.bind (h : Named env) {x : String} {t : Ty} (hx : IsName x) :
    Named (env.bind x t) := by
  intro y u hy
  rw [Env.sees_bind_iff] at hy
  split at hy
  · next he => rwa [he]
  · exact h y u hy

theorem Named.nested (h : Named env) : Named env.nested :=
  fun y u hy => h y u (Env.sees_nested_iff.1 hy)

theorem named_root : Named (.ofScope .root) := by
  intro y u hy
  rw [Env.sees_ofScope_iff] at hy
  cases hy

theorem literal_printed {raw : RawLiteral} {e : Expr .parsed} {e' : Expr .typed}
    (he : e.bare = .literal raw) (ht : ExprTyped catalog env e e')
    (hraw : ∀ digits, raw = .integer digits → Text.isDigits digits.toList) :
    ∃ js, Grammar.Primary js (term e') ∧ Printed (expr e').toList js := by
  cases ht with
  | literal hl =>
    simp only [Expr.bare, Bare.Expr.literal.injEq] at he
    obtain ⟨w, hw, hp⟩ := printed_literal hl (he ▸ hraw)
    exact ⟨[w], .literal hw, hp⟩
  | _ => simp [Expr.bare] at he

mutual

theorem layer_printed (hcatalog : Hosted catalog) (henv : Named env) :
    {n : Nat} → {ws : List Word} → {b : Bare.Expr} → LetLang.Grammar.Layer n ws b →
    (∀ w ∈ ws, Lexer.IsWord w.kind w.text) → {e : Expr .parsed} → {e' : Expr .typed} →
    e.bare = b → ExprTyped catalog env e e' →
    ∃ js, Grammar.Layer n js (term e') ∧ Printed (expr e').toList js
  | n, _, _, @LetLang.Grammar.Layer.chain op _ ls rs l r hop hl hr, hws, e, e', he, ht => by
    cases ht with
    | @binary op' _ _ _ _ _ _ htl htr _ =>
      simp only [Expr.bare, Bare.Expr.binary.injEq] at he
      obtain ⟨hop', hel, her⟩ := he
      have hls : ∀ w ∈ ls, Lexer.IsWord w.kind w.text := fun w hw => hws w (by simp [hw])
      have hrs : ∀ w ∈ rs, Lexer.IsWord w.kind w.text := fun w hw => hws w (by simp [hw])
      obtain ⟨js, hjs, hp⟩ := layer_printed hcatalog henv hl hls hel htl
      obtain ⟨ks, hks, hq⟩ := layer_printed hcatalog henv hr hrs her htr
      -- the left operand is a chain of this layer, and the operator goes on with it
      refine ⟨_, hjs.snoc (hop' ▸ hop) hks, ?_⟩
      have := (hp.space.append (sealed_operator op')).printed_append hq
      simpa [expr] using this
    | _ => simp [Expr.bare] at he
  | _, _, _, .tighter h, hws, e, e', he, ht => by
    obtain ⟨js, hjs, hp⟩ := layer_printed hcatalog henv h hws he ht
    exact ⟨js, hjs.wider (layer_le_three h), hp⟩
  | _, _, _, .primary h, hws, e, e', he, ht => by
    obtain ⟨js, hjs, hp⟩ := primary_printed hcatalog henv h hws he ht
    exact ⟨js, .primary hjs, hp⟩

theorem primary_printed (hcatalog : Hosted catalog) (henv : Named env) :
    {ws : List Word} → {b : Bare.Expr} → LetLang.Grammar.Primary ws b →
    (∀ w ∈ ws, Lexer.IsWord w.kind w.text) → {e : Expr .parsed} → {e' : Expr .typed} →
    e.bare = b → ExprTyped catalog env e e' →
    ∃ js, Grammar.Primary js (term e') ∧ Printed (expr e').toList js
  | _, _, .true, _, _, _, he, ht => literal_printed he ht nofun
  | _, _, .false, _, _, _, he, ht => literal_printed he ht nofun
  | _, _, .integer, hws, _, _, he, ht => by
    refine literal_printed he ht fun digits h => ?_
    cases h
    exact Lexer.IsWord.isDigits (hws _ List.mem_cons_self)
  | _, _, .decimal, _, _, _, he, ht => literal_printed he ht nofun
  | _, _, .string, _, _, _, he, ht => literal_printed he ht nofun
  | _, _, .var _, _, e, e', he, ht => by
    cases ht with
    | var hsees =>
      have hx := henv _ _ hsees
      exact ⟨_, .name hx, printed_word hx.isWord⟩
    | _ => simp [Expr.bare] at he
  | _, _, .call _ ha, hws, e, e', he, ht => by
    cases ht with
    | call hs hargs =>
      simp only [Expr.bare, Bare.Expr.call.injEq] at he
      obtain ⟨hs, hd⟩ := hcatalog.dotted hs
      obtain ⟨js, hjs, hp⟩ := arguments_printed hcatalog henv ha (fun w hw => hws w (by simp [hw]))
        he.2 hargs
      refine ⟨_, .call hd hjs, ?_⟩
      have hopen := @Printed.close _ _ "(" hd.printed (by decide)
      have := @Printed.close _ _ ")" (hopen.printed_append hp) (by decide)
      simpa [expr] using this.printed
    | _ => simp [Expr.bare] at he
  | _, _, .group hl, hws, e, e', he, ht => by
    cases ht with
    | group hinner =>
      simp only [Expr.bare, Bare.Expr.group.injEq] at he
      obtain ⟨js, hjs, hp⟩ := layer_printed hcatalog henv hl (fun w hw => hws w (by simp [hw])) he
        hinner
      refine ⟨_, .group hjs, ?_⟩
      have hopen := @sealed_closing "(" (by decide)
      have := @Printed.close _ _ ")" (hopen.printed_append hp) (by decide)
      simpa [expr] using this.printed
    | _ => simp [Expr.bare] at he

theorem arguments_printed (hcatalog : Hosted catalog) (henv : Named env) :
    {ws : List Word} → {bs : List Bare.Expr} → LetLang.Grammar.Arguments ws bs →
    (∀ w ∈ ws, Lexer.IsWord w.kind w.text) → {es : List (Expr .parsed)} → {ts : List Ty} →
    {es' : List (Expr .typed)} → Expr.bareAll es = bs → ArgumentsTyped catalog env es ts es' →
    ∃ js, Grammar.Arguments js (terms es') ∧ Printed (", ".intercalate (exprs es')).toList js
  | _, _, .none, _, es, ts, es', he, ht => by
    cases ht with
    | nil => exact ⟨[], .none, Sealed.nil.printed⟩
    | cons _ _ _ => simp [Expr.bareAll] at he
  | _, _, .some h, hws, es, ts, es', he, ht => by
    obtain ⟨js, hjs, hp⟩ := argumentList_printed hcatalog henv h hws he ht
    exact ⟨js, .some hjs, hp⟩

theorem argumentList_printed (hcatalog : Hosted catalog) (henv : Named env) :
    {ws : List Word} → {bs : List Bare.Expr} → LetLang.Grammar.ArgumentList ws bs →
    (∀ w ∈ ws, Lexer.IsWord w.kind w.text) → {es : List (Expr .parsed)} → {ts : List Ty} →
    {es' : List (Expr .typed)} → Expr.bareAll es = bs → ArgumentsTyped catalog env es ts es' →
    ∃ js, Grammar.ArgumentList js (terms es') ∧ Printed (", ".intercalate (exprs es')).toList js
  | _, _, .last hl, hws, es, ts, es', he, ht => by
    cases ht with
    | nil => simp [Expr.bareAll] at he
    | cons hte _ hts =>
      simp only [Expr.bareAll, List.cons.injEq] at he
      obtain ⟨js, hjs, hp⟩ := layer_printed hcatalog henv hl hws he.1 hte
      cases hts with
      | nil => exact ⟨js, .last hjs, hp⟩
      | cons _ _ _ => simp [Expr.bareAll] at he
  | _, _, .more hl h, hws, es, ts, es', he, ht => by
    cases ht with
    | nil => simp [Expr.bareAll] at he
    | @cons _ e' _ _ _ es' hte _ hts =>
      simp only [Expr.bareAll, List.cons.injEq] at he
      obtain ⟨js, hjs, hp⟩ := layer_printed hcatalog henv hl (fun w hw => hws w (by simp [hw]))
        he.1 hte
      obtain ⟨ks, hks, hq⟩ := argumentList_printed hcatalog henv h
        (fun w hw => hws w (by simp [hw])) he.2 hts
      refine ⟨_, .more hjs hks, ?_⟩
      have hcomma := (@Printed.close _ _ "," hp (by decide)).printed.space
      have := hcomma.printed_append hq
      cases es' with
      | nil => cases hks
      | cons e'' es' => simpa [exprs] using this

end

end LetLang.Java
