import LetLang.Proofs.Java.Terms

/-!
Printed statements. A statement is printed on lines of its own, which say the words of its command
however far they are indented, and the names that it declares are good names in Java.
-/

namespace LetLang

namespace Stmt

mutual

/-- The names that a statement declares, those of its blocks included. -/
def declared : Stmt .typed → List String
  | declaration name _ _ _ => [name.name]
  | branch _ yes no _ => declaredAll yes ++ declaredAll no
  | loop _ body _ => declaredAll body
  | _ => []

def declaredAll : Block .typed → List String
  | [] => []
  | s :: ss => s.declared ++ declaredAll ss

end

end Stmt

namespace Java

open Rules
open Text (Line)

section

variable (catalog : Catalog)

mutual

/-- A typed statement as a command. An empty `ELSE` is left out. -/
def command : Stmt .typed → Command
  | .expr e _ => .run (term e)
  | .declaration name ty initial _ =>
    .declare (catalog.hostType ty) name.name (initial.map term)
  | .assignment target e _ => .assign target.name (term e)
  | .branch test yes no _ =>
    .branch (term test) (commands yes) (if no.isEmpty then none else some (commands no))
  | .loop test body _ => .loop (term test) (commands body)

def commands : Block .typed → List Command
  | [] => []
  | s :: ss => command s :: commands ss

end

end

/-! Lines and the words they say. -/

/-- A line as it is laid out. -/
def laidOut (indent : Nat) (l : Line) : List Char :=
  List.replicate (l.level * indent) ' ' ++ (l.text.toList ++ ['\n'])

theorem laidOut_of_render? {indent : Nat} {l : Line} {text : String}
    (h : l.render? indent = some text) : text.toList = laidOut indent l := by
  obtain ⟨pad, hpad, rfl⟩ := Option.map_eq_some_iff.1 h
  unfold Text.padding? at hpad
  split at hpad
  · rw [← Option.some.inj hpad]
    simp [laidOut, Text.spaces]
  · cases hpad

theorem laidOut_of_layout? {indent : Nat} {lines : List Line} {text : String}
    (h : Text.layout? indent lines = some text) : text.toList = lines.flatMap (laidOut indent) := by
  obtain ⟨rendered, hr, rfl⟩ := Option.map_eq_some_iff.1 h
  rw [String.toList_join]
  clear h
  induction lines generalizing rendered with
  | nil =>
    cases hr
    rfl
  | cons l lines ih =>
    simp only [List.mapM_cons, Option.bind_eq_bind, Option.bind_eq_some_iff] at hr
    obtain ⟨first, hfirst, others, hothers, he⟩ := hr
    obtain rfl := Option.some.inj he
    rw [List.flatMap_cons, List.flatMap_cons, laidOut_of_render? hfirst, ih others hothers]

/-- The lines say these words, however far they are indented. -/
def Laid (lines : List Line) (ws : List Atom) : Prop :=
  ∀ indent, Sealed (lines.flatMap (laidOut indent)) ws

variable {ls ls' : List Line} {ws ws' : List Atom}

theorem Laid.nil : Laid [] [] := fun _ => Sealed.nil

theorem Laid.append (h : Laid ls ws) (h' : Laid ls' ws') : Laid (ls ++ ls') (ws ++ ws') := by
  intro indent
  rw [List.flatMap_append]
  exact (h indent).append (h' indent)

theorem laid_line {level : Nat} {text : String} (h : Printed text.toList ws) :
    Laid [⟨level, text⟩] ws := by
  intro indent
  have hpad : Sealed (List.replicate (level * indent) ' ') [] := sealed_blanks (by decide)
  have hend : Sealed ['\n'] [] := sealed_blank (by decide)
  have := hpad.append (h.append hend (by decide))
  simpa [laidOut] using this

theorem IsType.isWord {type : String} (h : IsType type) : IsWord .word type.toList := by
  rcases h with h | h
  · have hall : ∀ t ∈ primitives, IsWord .word t.toList := by decide
    exact hall type h
  · exact h.isWord

/-! Lines of one statement. -/

variable {level : Nat} {e : String} {es : List Atom}

theorem laid_terminated {text : String} (h : Printed text.toList ws) :
    Laid [⟨level, text ++ ";"⟩] (ws ++ [symbol ";"]) := by
  refine laid_line ?_
  rw [String.toList_append]
  exact (h.close (by decide)).printed

/-- The head of a statement with a block. -/
theorem laid_head (level : Nat) {x : String} (hx : IsWord .word x.toList)
    (h : Printed e.toList es) :
    Laid [⟨level, x ++ " (" ++ e ++ ") \x7b"⟩]
      (word x :: symbol "(" :: (es ++ [symbol ")", symbol "\x7b"])) := by
  refine laid_line ?_
  have hopen := (sealed_word hx).append (@sealed_closing "(" (by decide))
  have htest := @Printed.close _ _ ")" (hopen.printed_append h) (by decide)
  have := htest.printed.space.append (@sealed_closing "\x7b" (by decide))
  simpa using this.printed

theorem printed_declaration {type x : String} (ht : IsType type) (hx : IsName x) :
    Printed (type ++ " " ++ x).toList [word type, word x] := by
  have := (sealed_word ht.isWord).printed_append (printed_word hx.isWord)
  simpa using this

theorem printed_assignment {x : String} (hx : Printed x.toList ws) (h : Printed e.toList es) :
    Printed (x ++ " = " ++ e).toList (ws ++ symbol "=" :: es) := by
  have hsign := @sealed_symbol "=" (by decide) (by decide)
  have := (hx.space.append hsign).printed_append h
  simpa using this

theorem laid_closing (level : Nat) : Laid [⟨level, "\x7d"⟩] [symbol "\x7d"] :=
  laid_line (@sealed_closing "\x7d" (by decide)).printed

theorem laid_else (level : Nat) : Laid [⟨level, "\x7d else \x7b"⟩]
    [symbol "\x7d", word "else", symbol "\x7b"] := by
  have hclose := (@sealed_closing "\x7d" (by decide)).printed.space
  have helse := @sealed_word "else" (by decide)
  have := (hclose.append helse).append (@sealed_closing "\x7b" (by decide))
  exact laid_line this.printed

/-! What a statement is printed as. -/

theorem primary_of_call : {n : Nat} → {ws : List Word} → {b : Bare.Expr} →
    LetLang.Grammar.Layer n ws b → {x : String} → {args : List Bare.Expr} → b = .call x args →
    LetLang.Grammar.Primary ws b
  | _, _, _, .chain _ _ _, _, _, hb => by cases hb
  | _, _, _, .tighter h, _, _, hb => primary_of_call h hb
  | _, _, _, .primary h, _, _, _ => h

variable {catalog : Catalog}

theorem call_printed (hcatalog : Hosted catalog) {env : Env} (henv : Named env) {ws : List Word}
    {e : Expr .parsed} {e' : Expr .typed} (h : LetLang.Grammar.Layer 0 ws e.bare)
    (hws : ∀ w ∈ ws, Lexer.IsWord w.kind w.text) (hc : e.isCall)
    (ht : ExprTyped catalog env e e') :
    ∃ js, Grammar.Statement (js ++ [symbol ";"]) (.run (term e')) ∧
      Printed (expr e').toList js := by
  cases ht with
  | call hs ha =>
    obtain ⟨js, hjs, hp⟩ := primary_printed hcatalog henv (primary_of_call h rfl) hws rfl
      (.call hs ha)
    exact ⟨js, .run hjs, hp⟩
  | _ => cases hc

theorem declaration_printed (hcatalog : Hosted catalog) {env : Env} (henv : Named env)
    {ws : List Word} {initial : Option (Expr .parsed)} {initial' : Option (Expr .typed)}
    (h : LetLang.Grammar.Initializer ws (initial.map Expr.bare))
    (hws : ∀ w ∈ ws, Lexer.IsWord w.kind w.text) {x : Ident} {t : Ty} {span : Span}
    (hx : IsName x.name) (hv : t ≠ .void) (hi : InitialTyped catalog env t initial initial') :
    ∃ js, Grammar.Statement js (command catalog (.declaration x t initial' span)) ∧
      ∀ level, Laid (stmt catalog level (.declaration x t initial' span)) js := by
  have htype := hcatalog.isType hv
  cases hi with
  | none =>
    refine ⟨_, .declare htype hx .none, fun level => ?_⟩
    exact laid_terminated (printed_declaration htype hx)
  | @some e e' he _ =>
    obtain ⟨js, hjs, hp⟩ : ∃ js, Grammar.Layer 0 js (term e') ∧ Printed (expr e').toList js := by
      cases h with
      | some hl =>
        exact layer_printed hcatalog henv hl (fun w hw => hws w (List.mem_cons_of_mem _ hw)) rfl he
    refine ⟨_, .declare htype hx (.some hjs), fun level => ?_⟩
    exact laid_terminated (printed_assignment (printed_declaration htype hx) hp)

/-- A name that is good for a variable in Java. -/
def GoodName (catalog : Catalog) (x : String) : Prop := IsName x ∧ ¬ HostReserved catalog x

mutual

theorem statement_printed (hcatalog : Hosted catalog) : {ws : List Word} → {b : Bare.Stmt} →
    LetLang.Grammar.Statement ws b → (∀ w ∈ ws, Lexer.IsWord w.kind w.text) →
    {env env' : Env} → Named env → {s : Stmt .parsed} → {s' : Stmt .typed} → s.bare = b →
    StmtTyped catalog env s s' env' →
    (∃ js, Grammar.Statement js (command catalog s') ∧
      ∀ level, Laid (stmt catalog level s') js) ∧
    Named env' ∧ ∀ x ∈ s'.declared, GoodName catalog x
  | _, _, .expr hl, hws, env, env', henv, s, s', hs, ht => by
    cases ht with
    | expr hc he =>
      simp only [Stmt.bare, Bare.Stmt.expr.injEq] at hs
      rw [← hs] at hl
      obtain ⟨js, hjs, hp⟩ := call_printed hcatalog henv hl (fun w hw => hws w (by simp [hw])) hc he
      exact ⟨⟨_, hjs, fun level => laid_terminated hp⟩, henv, nofun⟩
    | _ => simp [Stmt.bare] at hs
  | _, _, .declaration _ _ hi, hws, env, env', henv, s, s', hs, ht => by
    cases ht with
    | @declaration _ x ty t initial initial' span hr hn hv hinit hnew =>
      simp only [Stmt.bare, Bare.Stmt.declaration.injEq] at hs
      obtain ⟨hx, -, hinitial⟩ := hs
      rw [← hinitial] at hi
      have hname : IsName x.name := by
        refine isName_of_not_reserved ?_ hr
        rw [hx]
        exact hws (.name _) (by simp)
      refine ⟨?_, henv.bind hname, ?_⟩
      · exact declaration_printed hcatalog henv hi (fun w hw => hws w (by simp [hw])) hname hv hinit
      · intro y hy
        obtain rfl := List.mem_singleton.1 hy
        exact ⟨hname, hr⟩
    | _ => simp [Stmt.bare] at hs
  | _, _, .assignment _ hl, hws, env, env', henv, s, s', hs, ht => by
    cases ht with
    | assignment hsees he _ =>
      simp only [Stmt.bare, Bare.Stmt.assignment.injEq] at hs
      obtain ⟨js, hjs, hp⟩ := layer_printed hcatalog henv hl (fun w hw => hws w (by simp [hw]))
        hs.2 he
      have hx := henv _ _ hsees
      refine ⟨⟨_, .assign hx hjs, fun level => ?_⟩, henv, nofun⟩
      exact laid_terminated (printed_assignment (printed_word hx.isWord) hp)
    | _ => simp [Stmt.bare] at hs
  | _, _, .branch hc hy hn, hws, env, env', henv, s, s', hs, ht => by
    cases ht with
    | @branch _ _ _ c c' yes no yes' no' span htest _ _ htyes htno =>
      simp only [Stmt.bare, Bare.Stmt.branch.injEq] at hs
      obtain ⟨js, hjs, hp⟩ := layer_printed hcatalog henv hc (fun w hw => hws w (by simp [hw]))
        hs.1 htest
      obtain ⟨⟨ys, hys, hly⟩, -, hdy⟩ := statements_printed hcatalog hy
        (fun w hw => hws w (by simp [hw])) henv.nested hs.2.1 htyes
      obtain ⟨⟨ns, hns, hln⟩, hdn⟩ := otherwise_printed hcatalog hn
        (fun w hw => hws w (by simp [hw])) henv.nested hs.2.2 htno
      refine ⟨⟨_, .branch hjs hys hns, fun level => ?_⟩, henv, ?_⟩
      · have hhead := @laid_head _ _ level "if" (by decide) hp
        have := hhead.append ((hly (level + 1)).append (hln level))
        simpa [stmt] using this
      · intro x hx
        rcases List.mem_append.1 hx with hx | hx
        · exact hdy x hx
        · exact hdn x hx
    | _ => simp [Stmt.bare] at hs
  | _, _, .loop hc hb, hws, env, env', henv, s, s', hs, ht => by
    cases ht with
    | loop htest _ htbody =>
      simp only [Stmt.bare, Bare.Stmt.loop.injEq] at hs
      obtain ⟨js, hjs, hp⟩ := layer_printed hcatalog henv hc (fun w hw => hws w (by simp [hw]))
        hs.1 htest
      obtain ⟨⟨ks, hks, hl⟩, -, hd⟩ := statements_printed hcatalog hb
        (fun w hw => hws w (by simp [hw])) henv.nested hs.2 htbody
      refine ⟨⟨_, .loop hjs hks, fun level => ?_⟩, henv, hd⟩
      have hhead := @laid_head _ _ level "while" (by decide) hp
      have := hhead.append ((hl (level + 1)).append (laid_closing level))
      simpa [stmt] using this
    | _ => simp [Stmt.bare] at hs

theorem otherwise_printed (hcatalog : Hosted catalog) : {ws : List Word} → {bs : List Bare.Stmt} →
    LetLang.Grammar.Otherwise ws bs → (∀ w ∈ ws, Lexer.IsWord w.kind w.text) →
    {env env' : Env} → Named env → {ss : Block .parsed} → {ss' : Block .typed} →
    Stmt.bareAll ss = bs → BlockTyped catalog env ss ss' env' →
    (∃ js, Grammar.Otherwise js (if ss'.isEmpty then none else some (commands catalog ss')) ∧
      ∀ level, Laid ((if ss'.isEmpty then []
        else ⟨level, "\x7d else \x7b"⟩ :: block catalog (level + 1) ss') ++ [⟨level, "\x7d"⟩])
        (symbol "\x7d" :: js)) ∧
    ∀ x ∈ Stmt.declaredAll ss', GoodName catalog x
  | _, _, .none, hws, env, env', henv, ss, ss', hs, ht => by
    cases ht with
    | nil => exact ⟨⟨[], .none, laid_closing⟩, nofun⟩
    | cons _ _ => simp [Stmt.bareAll] at hs
  | _, _, .some h, hws, env, env', henv, ss, ss', hs, ht => by
    obtain ⟨⟨js, hjs, hl⟩, -, hd⟩ := statements_printed hcatalog h
      (fun w hw => hws w (by simp [hw])) henv hs ht
    refine ⟨?_, hd⟩
    -- an `ELSE` without statements is not printed
    cases ss' with
    | nil => exact ⟨[], .none, laid_closing⟩
    | cons s' ss' =>
      refine ⟨_, .some hjs, fun level => ?_⟩
      have := (laid_else level).append ((hl (level + 1)).append (laid_closing level))
      simpa using this

theorem statements_printed (hcatalog : Hosted catalog) : {ws : List Word} →
    {bs : List Bare.Stmt} → LetLang.Grammar.Statements ws bs →
    (∀ w ∈ ws, Lexer.IsWord w.kind w.text) → {env env' : Env} → Named env →
    {ss : Block .parsed} → {ss' : Block .typed} → Stmt.bareAll ss = bs →
    BlockTyped catalog env ss ss' env' →
    (∃ js, Grammar.Statements js (commands catalog ss') ∧
      ∀ level, Laid (block catalog level ss') js) ∧
    Named env' ∧ ∀ x ∈ Stmt.declaredAll ss', GoodName catalog x
  | _, _, .nil, hws, env, env', henv, ss, ss', hs, ht => by
    cases ht with
    | nil => exact ⟨⟨[], .nil, fun _ => Laid.nil⟩, henv, nofun⟩
    | cons _ _ => simp [Stmt.bareAll] at hs
  | _, _, .cons h h', hws, env, env', henv, ss, ss', hs, ht => by
    cases ht with
    | nil => simp [Stmt.bareAll] at hs
    | cons hts htss =>
      simp only [Stmt.bareAll, List.cons.injEq] at hs
      obtain ⟨⟨js, hjs, hl⟩, hmid, hd⟩ := statement_printed hcatalog h
        (fun w hw => hws w (by simp [hw])) henv hs.1 hts
      obtain ⟨⟨ks, hks, hl'⟩, henv', hd'⟩ := statements_printed hcatalog h'
        (fun w hw => hws w (by simp [hw])) hmid hs.2 htss
      refine ⟨⟨_, .cons hjs hks, fun level => (hl level).append (hl' level)⟩, henv', ?_⟩
      intro x hx
      rcases List.mem_append.1 hx with hx | hx
      · exact hd x hx
      · exact hd' x hx

end

end Java

end LetLang
