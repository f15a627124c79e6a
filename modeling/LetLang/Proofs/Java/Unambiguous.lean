import LetLang.Proofs.Java.Grammar

/-!
A text is read as one program at most. Two derivations that start at the same word are compared from
the left, with what follows each of them kept in view: a layer ends where no operator of its own or
a tighter one stands, a name where neither a point nor an argument list does, and a branch where no
`else` does.
-/

namespace LetLang

theorem Operator.spelling_injective {op op' : Operator} (h : op.spelling = op'.spelling) :
    op = op' := by
  have hall : ∀ o ∈ all, ∀ o' ∈ all, o.spelling = o'.spelling → o = o' := by decide
  exact hall op op.mem_all op' op'.mem_all h

namespace Java

@[simp] theorem word_inj {x y : String} : word x = word y ↔ x = y := by
  simp [word, String.toList_inj]

@[simp] theorem symbol_inj {s s' : String} : symbol s = symbol s' ↔ s = s' := by
  simp [symbol, String.toList_inj]

@[simp] theorem word_ne_symbol {x s : String} : word x ≠ symbol s := by
  simp [word, symbol]

@[simp] theorem symbol_ne_word {x s : String} : symbol s ≠ word x := by
  simp [word, symbol]

namespace Grammar

variable {n : Nat} {r r' : List Atom}

/-- Where a layer ends. -/
def Ends (n : Nat) (rest : List Atom) : Prop :=
  ∀ w ∈ rest.head?, w ≠ symbol "(" ∧ w ≠ symbol "." ∧
    ∀ op : Operator, n ≤ op.layer → w ≠ symbol op.spelling

theorem Ends.mono {m : Nat} (h : Ends m r) (hm : m ≤ n) : Ends n r := by
  intro w hw
  obtain ⟨hopen, hpoint, hop⟩ := h w hw
  exact ⟨hopen, hpoint, fun op hn => hop op (Nat.le_trans hm hn)⟩

theorem ends_symbol {s : String} (hs : s ∈ [")", ",", ";"]) : Ends n (symbol s :: r) := by
  have hall : ∀ s ∈ [")", ",", ";"], s ≠ "(" ∧ s ≠ "." ∧ ∀ op ∈ Operator.all, s ≠ op.spelling := by
    decide
  obtain ⟨hopen, hpoint, hop⟩ := hall s hs
  intro w hw
  obtain rfl := Option.some.inj hw
  simp only [ne_eq, symbol_inj]
  exact ⟨hopen, hpoint, fun op _ => hop op op.mem_all⟩

theorem ends_operator {op : Operator} (h : op.layer < n) : Ends n (symbol op.spelling :: r) := by
  have hall : ∀ op ∈ Operator.all, op.spelling ≠ "(" ∧ op.spelling ≠ "." := by decide
  obtain ⟨hopen, hpoint⟩ := hall op op.mem_all
  intro w hw
  obtain rfl := Option.some.inj hw
  simp only [ne_eq, symbol_inj]
  refine ⟨hopen, hpoint, fun op' hn he => ?_⟩
  rw [Operator.spelling_injective he] at h
  omega

/-- After the first operand of a layer comes an operator of that layer, or what comes after it. -/
theorem Tail.ends {l t : Term} {ts : List Atom} (h : Tail n l ts t) (hr : Ends n r) :
    Ends (n + 1) (ts ++ r) := by
  cases h with
  | done => exact hr.mono (Nat.le_succ n)
  | step hop _ _ => exact ends_operator (hop ▸ Nat.lt_succ_self _)

theorem Dotted.starts {hs : List Atom} {host : String} (h : Dotted hs host) :
    ∃ x us, hs = word x :: us ∧ IsName x := by
  cases h with
  | last hx => exact ⟨_, _, rfl, hx⟩
  | more hx _ => exact ⟨_, _, rfl, hx⟩

theorem Dotted.next {hs : List Atom} {host : String} (h : Dotted hs host) {x : String}
    (he : hs ++ symbol "(" :: r = word x :: r') :
    r'.head? = some (symbol "(") ∨ r'.head? = some (symbol ".") := by
  cases h with
  | last _ =>
    left
    rw [← (List.cons.inj he).2]
    rfl
  | more _ _ =>
    right
    rw [← (List.cons.inj he).2]
    rfl

theorem Ends.not_next (h : Ends n r) :
    ¬ (r.head? = some (symbol "(") ∨ r.head? = some (symbol ".")) := by
  intro hnext
  rcases hnext with hw | hw
  · exact (h _ hw).1 rfl
  · exact (h _ hw).2.1 rfl

theorem Dotted.unique {hs hs' : List Atom} {host host' : String} (h : Dotted hs host)
    (h' : Dotted hs' host') (he : hs ++ symbol "(" :: r = hs' ++ symbol "(" :: r') :
    hs = hs' ∧ host = host' := by
  induction h generalizing hs' host' with
  | last _ =>
    cases h' with
    | last _ =>
      obtain ⟨rfl, -⟩ := by simpa using he
      exact ⟨rfl, rfl⟩
    | more _ _ => simp at he
  | more _ _ ih =>
    cases h' with
    | last _ => simp at he
    | more _ h' =>
      simp only [List.cons_append, List.cons.injEq, word_inj, true_and] at he
      obtain ⟨rfl, he⟩ := he
      obtain ⟨rfl, rfl⟩ := ih h' he
      exact ⟨rfl, rfl⟩

/-! Literals. -/

theorem not_literal_name {x : String} {c : Constant} (hx : IsName x) : ¬ Literal (word x) c := by
  generalize hw : word x = w
  intro h
  cases h with
  | true =>
    rw [word_inj] at hw
    subst hw
    exact hx.not_keyword (by decide)
  | false =>
    rw [word_inj] at hw
    subst hw
    exact hx.not_keyword (by decide)
  | _ => simp [word] at hw

theorem not_literal_symbol {s : String} {c : Constant} : ¬ Literal (symbol s) c := by
  generalize hw : symbol s = w
  intro h
  cases h <;> simp [symbol, word] at hw

theorem Literal.unique {w : Atom} {c c' : Constant} (h : Literal w c) (h' : Literal w c') :
    c = c' := by
  cases h with
  | true =>
    generalize hw : word "true" = w at h'
    cases h' <;> simp [word] at hw ⊢
  | false =>
    generalize hw : word "false" = w at h'
    cases h' <;> simp [word] at hw ⊢
  | @int digits hd _ _ =>
    generalize hw : (⟨.number, digits⟩ : Atom) = w at h'
    cases h' with
    | int _ _ _ =>
      cases hw
      rfl
    | double _ _ =>
      cases hw
      exact absurd hd fun hd => Text.point_not_mem hd (by simp)
    | _ => simp [word] at hw
  | @double whole fraction hwhole _ =>
    generalize hw : (⟨.number, whole ++ '.' :: fraction⟩ : Atom) = w at h'
    cases h' with
    | int hd _ _ =>
      cases hw
      exact absurd hd fun hd => Text.point_not_mem hd (by simp)
    | double hwhole' _ =>
      have he := (Text.Word.mk.inj hw).2
      obtain ⟨rfl, rfl⟩ := Text.append_cons_injective (Text.point_not_mem hwhole)
        (Text.point_not_mem hwhole') he
      rfl
    | _ => simp [word] at hw
  | @string body vs hbody =>
    generalize hw : (⟨.string, '"' :: (body ++ ['"'])⟩ : Atom) = w at h'
    cases h' with
    | string hbody' =>
      obtain rfl := by simpa using hw
      rw [hbody.unique hbody']
    | _ => simp [word] at hw

/-! What is read from a given first word. -/

variable {ws u : List Atom} {t : Term}

theorem Primary.of_literal {w : Atom} {c : Constant} (hw : Literal w c) (h : Primary ws t)
    (he : w :: u = ws ++ r) : ws = [w] ∧ t = .literal c := by
  cases h with
  | literal hw' =>
    obtain ⟨rfl, -⟩ := by simpa using he
    rw [hw.unique hw']
    exact ⟨rfl, rfl⟩
  | name hx =>
    obtain ⟨rfl, -⟩ := by simpa using he
    exact absurd hw (not_literal_name hx)
  | call hd _ =>
    obtain ⟨x, us, rfl, hx⟩ := hd.starts
    obtain ⟨rfl, -⟩ := by simpa using he
    exact absurd hw (not_literal_name hx)
  | group _ =>
    obtain ⟨rfl, -⟩ := by simpa using he
    exact absurd hw not_literal_symbol

theorem Primary.of_name {x : String} (hx : IsName x) (h : Primary ws t)
    (he : word x :: u = ws ++ r) :
    (ws = [word x] ∧ t = .name x) ∨ ∃ hs vs host args, Dotted hs host ∧ Arguments vs args ∧
      ws = hs ++ symbol "(" :: (vs ++ [symbol ")"]) ∧ t = .call host args := by
  cases h with
  | literal hw =>
    obtain ⟨rfl, -⟩ := by simpa using he
    exact absurd hw (not_literal_name hx)
  | name _ =>
    obtain ⟨rfl, -⟩ := by simpa using he
    exact .inl ⟨rfl, rfl⟩
  | call hd ha => exact .inr ⟨_, _, _, _, hd, ha, rfl, rfl⟩
  | group _ => simp at he

theorem Primary.of_opening (h : Primary ws t) (he : symbol "(" :: u = ws ++ r) :
    ∃ vs inner, Layer 0 vs inner ∧ ws = symbol "(" :: (vs ++ [symbol ")"]) ∧ t = .group inner := by
  cases h with
  | literal hw =>
    obtain ⟨rfl, -⟩ := by simpa using he
    exact absurd hw not_literal_symbol
  | name _ => simp at he
  | call hd _ =>
    obtain ⟨x, us, rfl, -⟩ := hd.starts
    simp at he
  | group hl => exact ⟨_, _, hl, rfl, rfl⟩

theorem Primary.starts (h : Primary ws t) : ∃ w us, ws = w :: us ∧ w ≠ symbol ")" := by
  cases h with
  | literal hw =>
    refine ⟨_, _, rfl, ?_⟩
    rintro rfl
    exact not_literal_symbol hw
  | name _ => exact ⟨_, _, rfl, word_ne_symbol⟩
  | call hd _ =>
    obtain ⟨x, us, rfl, -⟩ := hd.starts
    exact ⟨_, _, rfl, word_ne_symbol⟩
  | group _ => exact ⟨_, _, rfl, by simp⟩

theorem Layer.starts : {n : Nat} → {ws : List Atom} → {t : Term} → Layer n ws t →
    ∃ w us, ws = w :: us ∧ w ≠ symbol ")"
  | _, _, _, .chain _ h _ => by
    obtain ⟨w, us, rfl, hw⟩ := h.starts
    exact ⟨w, us ++ _, rfl, hw⟩
  | _, _, _, .primary h => h.starts

theorem ArgumentList.starts {ts : List Term} (h : ArgumentList ws ts) :
    ∃ w us, ws = w :: us ∧ w ≠ symbol ")" := by
  cases h with
  | last h => exact h.starts
  | more h _ =>
    obtain ⟨w, us, rfl, hw⟩ := h.starts
    exact ⟨w, _, rfl, hw⟩

-- Along the first derivation: the next word makes the second one take the same step.
mutual

theorem Layer.unique : {n : Nat} → {ws ws' r r' : List Atom} → {t t' : Term} → Layer n ws t →
    Layer n ws' t' → ws ++ r = ws' ++ r' → Ends n r → Ends n r' → ws = ws' ∧ t = t'
  | n, _, ws', r, r', _, t', .chain hn hl ht, h', he, hr, hr' => by
    cases h' with
    | chain _ hl' ht' =>
      rw [List.append_assoc, List.append_assoc] at he
      obtain ⟨rfl, rfl⟩ := hl.unique hl' he (ht.ends hr) (ht'.ends hr')
      obtain ⟨rfl, rfl⟩ := ht.unique ht' (List.append_cancel_left he) hr hr'
      exact ⟨rfl, rfl⟩
    | primary _ => exact absurd hn (Nat.lt_irrefl 3)
  | _, _, ws', r, r', _, t', .primary h, h', he, hr, hr' => by
    cases h' with
    | chain hn _ _ => exact absurd hn (Nat.lt_irrefl 3)
    | primary h' => exact h.unique h' he hr hr'
termination_by structural _ _ _ _ _ _ _ h => h

theorem Tail.unique : {n : Nat} → {l : Term} → {ws ws' r r' : List Atom} → {t t' : Term} →
    Tail n l ws t → Tail n l ws' t' → ws ++ r = ws' ++ r' → Ends n r → Ends n r' →
    ws = ws' ∧ t = t'
  | n, l, _, ws', r, r', _, t', .done, h', he, hr, hr' => by
    cases h' with
    | done => exact ⟨rfl, rfl⟩
    | @step op _ _ _ _ _ _ hop _ _ =>
      rw [List.nil_append] at he
      exact absurd rfl ((hr (symbol op.spelling) (by simp [he])).2.2 op (Nat.le_of_eq hop.symm))
  | n, l, _, ws', r, r', _, t', .step hop hl ht, h', he, hr, hr' => by
    cases h' with
    | done =>
      rw [List.nil_append] at he
      exact absurd rfl ((hr' _ (by rw [← he]; rfl)).2.2 _ (Nat.le_of_eq hop.symm))
    | step hop' hl' ht' =>
      simp only [List.cons_append, List.cons.injEq, symbol_inj, List.append_assoc] at he
      obtain ⟨hs, he⟩ := he
      obtain rfl := Operator.spelling_injective hs
      obtain ⟨rfl, rfl⟩ := hl.unique hl' he (ht.ends hr) (ht'.ends hr')
      obtain ⟨rfl, rfl⟩ := ht.unique ht' (List.append_cancel_left he) hr hr'
      exact ⟨rfl, rfl⟩
termination_by structural _ _ _ _ _ _ _ _ h => h

theorem Primary.unique : {n : Nat} → {ws ws' r r' : List Atom} → {t t' : Term} → Primary ws t →
    Primary ws' t' → ws ++ r = ws' ++ r' → Ends n r → Ends n r' → ws = ws' ∧ t = t'
  | _, _, ws', r, r', _, t', .literal hw, h', he, hr, hr' => by
    obtain ⟨rfl, rfl⟩ := h'.of_literal hw he
    exact ⟨rfl, rfl⟩
  | _, _, ws', r, r', _, t', .name hx, h', he, hr, hr' => by
    rcases h'.of_name hx he with ⟨rfl, rfl⟩ | ⟨hs, vs, host, args, hd, -, rfl, -⟩
    · exact ⟨rfl, rfl⟩
    · -- a name before an argument list or a point is no name alone
      simp only [List.append_assoc, List.cons_append] at he
      exact absurd (hd.next he.symm) hr.not_next
  | _, _, ws', r, r', _, t', @Primary.call hs vs _ _ hd ha, h', he, hr, hr' => by
    obtain ⟨x, us, hs_eq, hx⟩ := hd.starts
    have hstart : word x :: (us ++ symbol "(" :: (vs ++ [symbol ")"]) ++ r) = ws' ++ r' := by
      rw [← he, hs_eq]
      rfl
    simp only [List.append_assoc, List.cons_append] at he
    rcases h'.of_name hx hstart with ⟨rfl, -⟩ | ⟨hs', vs', host', args', hd', ha', rfl, rfl⟩
    · exact absurd (hd.next he) hr'.not_next
    · simp only [List.append_assoc, List.cons_append] at he
      obtain ⟨rfl, rfl⟩ := hd.unique hd' he
      obtain ⟨rfl, rfl⟩ := ha.unique ha' (List.cons.inj (List.append_cancel_left he)).2
      exact ⟨rfl, rfl⟩
  | _, _, ws', r, r', _, t', .group hl, h', he, hr, hr' => by
    obtain ⟨vs, inner, hl', rfl, rfl⟩ := h'.of_opening he
    simp only [List.cons_append, List.cons.injEq, true_and, List.append_assoc] at he
    obtain ⟨rfl, rfl⟩ := hl.unique hl' he (ends_symbol (by simp)) (ends_symbol (by simp))
    exact ⟨rfl, rfl⟩
termination_by structural _ _ _ _ _ _ _ h => h

theorem Arguments.unique : {ws ws' r r' : List Atom} → {ts ts' : List Term} → Arguments ws ts →
    Arguments ws' ts' → ws ++ symbol ")" :: r = ws' ++ symbol ")" :: r' → ws = ws' ∧ ts = ts'
  | _, ws', r, r', _, ts', .none, h', he => by
    cases h' with
    | none => exact ⟨rfl, rfl⟩
    | some h' =>
      obtain ⟨w, us, rfl, hw⟩ := h'.starts
      exact absurd (List.cons.inj he).1.symm hw
  | _, ws', r, r', _, ts', .some h, h', he => by
    cases h' with
    | none =>
      obtain ⟨w, us, rfl, hw⟩ := h.starts
      exact absurd (List.cons.inj he).1 hw
    | some h' => exact h.unique h' he
termination_by structural _ _ _ _ _ _ h => h

theorem ArgumentList.unique : {ws ws' r r' : List Atom} → {ts ts' : List Term} →
    ArgumentList ws ts → ArgumentList ws' ts' →
    ws ++ symbol ")" :: r = ws' ++ symbol ")" :: r' → ws = ws' ∧ ts = ts'
  | _, ws', r, r', _, ts', .last hl, h', he => by
    cases h' with
    | last hl' =>
      obtain ⟨rfl, rfl⟩ := hl.unique hl' he (ends_symbol (by simp)) (ends_symbol (by simp))
      exact ⟨rfl, rfl⟩
    | more hl' _ =>
      rw [List.append_assoc] at he
      obtain ⟨rfl, rfl⟩ := hl.unique hl' he (ends_symbol (by simp)) (ends_symbol (by simp))
      simp at he
  | _, ws', r, r', _, ts', .more hl h, h', he => by
    rw [List.append_assoc] at he
    cases h' with
    | last hl' =>
      obtain ⟨rfl, rfl⟩ := hl.unique hl' he (ends_symbol (by simp)) (ends_symbol (by simp))
      simp at he
    | more hl' h' =>
      rw [List.append_assoc] at he
      obtain ⟨rfl, rfl⟩ := hl.unique hl' he (ends_symbol (by simp)) (ends_symbol (by simp))
      obtain ⟨rfl, rfl⟩ := h.unique h' (List.cons.inj (List.append_cancel_left he)).2
      exact ⟨rfl, rfl⟩
termination_by structural _ _ _ _ _ _ h => h

end

/-! Statements, told apart by their first two words. -/

theorem Primary.call_starts {host : String} {args : List Term} (h : Primary ws (.call host args)) :
    ∃ x w us, ws = word x :: w :: us ∧ IsName x ∧ (w = symbol "(" ∨ w = symbol ".") := by
  generalize ht : Term.call host args = t at h
  cases h with
  | call hd _ =>
    cases hd with
    | last hx => exact ⟨_, _, _, rfl, hx, .inl rfl⟩
    | more hx _ => exact ⟨_, _, _, rfl, hx, .inr rfl⟩
  | _ => cases ht

variable {c : Command}

theorem Statement.of_declare {type x : String} (h : Statement ws c)
    (he : word type :: word x :: u = ws ++ r) :
    ∃ vs initial, Initializer vs initial ∧ ws = word type :: word x :: (vs ++ [symbol ";"]) ∧
      c = .declare type x initial := by
  cases h with
  | declare _ _ hi =>
    obtain ⟨rfl, rfl, -⟩ := by simpa using he
    exact ⟨_, _, hi, rfl, rfl⟩
  | run hp =>
    obtain ⟨y, w, us, rfl, -, rfl | rfl⟩ := hp.call_starts <;> simp at he
  | _ => simp at he

theorem Statement.of_assign {x : String} (h : Statement ws c)
    (he : word x :: symbol "=" :: u = ws ++ r) :
    ∃ vs t, Layer 0 vs t ∧ ws = word x :: symbol "=" :: (vs ++ [symbol ";"]) ∧
      c = .assign x t := by
  cases h with
  | assign _ hl =>
    obtain ⟨rfl, -⟩ := by simpa using he
    exact ⟨_, _, hl, rfl, rfl⟩
  | run hp =>
    obtain ⟨y, w, us, rfl, -, rfl | rfl⟩ := hp.call_starts <;> simp at he
  | _ => simp at he

theorem Statement.of_run {host : String} {args : List Term} (hp : Primary u (.call host args))
    (h : Statement ws c) (he : u ++ r = ws ++ r') :
    ∃ vs host args, Primary vs (.call host args) ∧ ws = vs ++ [symbol ";"] ∧
      c = .run (.call host args) := by
  obtain ⟨x, w, us, rfl, hx, hw⟩ := hp.call_starts
  cases h with
  | run hp' => exact ⟨_, _, _, hp', rfl, rfl⟩
  | branch _ _ _ =>
    obtain ⟨rfl, -⟩ := by simpa using he
    exact absurd (by decide) hx.not_keyword
  | loop _ _ =>
    obtain ⟨rfl, -⟩ := by simpa using he
    exact absurd (by decide) hx.not_keyword
  | _ => rcases hw with rfl | rfl <;> simp at he

theorem Statement.of_if (h : Statement ws c)
    (he : word "if" :: symbol "(" :: u = ws ++ r) :
    ∃ cs ys ns test yes no, Layer 0 cs test ∧ Statements ys yes ∧ Otherwise ns no ∧
      ws = word "if" :: symbol "(" :: (cs ++ symbol ")" :: symbol "\x7b" ::
        (ys ++ symbol "\x7d" :: ns)) ∧ c = .branch test yes no := by
  cases h with
  | branch hc hy hn => exact ⟨_, _, _, _, _, _, hc, hy, hn, rfl, rfl⟩
  | run hp =>
    obtain ⟨y, w, us, rfl, hy, -⟩ := hp.call_starts
    obtain ⟨rfl, -⟩ := by simpa using he
    exact absurd (by decide) hy.not_keyword
  | _ => simp at he

theorem Statement.of_while (h : Statement ws c)
    (he : word "while" :: symbol "(" :: u = ws ++ r) :
    ∃ cs bs test body, Layer 0 cs test ∧ Statements bs body ∧
      ws = word "while" :: symbol "(" :: (cs ++ symbol ")" :: symbol "\x7b" ::
        (bs ++ [symbol "\x7d"])) ∧ c = .loop test body := by
  cases h with
  | loop hc hb => exact ⟨_, _, _, _, hc, hb, rfl, rfl⟩
  | run hp =>
    obtain ⟨y, w, us, rfl, hy, -⟩ := hp.call_starts
    obtain ⟨rfl, -⟩ := by simpa using he
    exact absurd (by decide) hy.not_keyword
  | _ => simp at he

theorem IsType.ne_else {type : String} (h : IsType type) : type ≠ "else" := by
  rintro rfl
  rcases h with h | h
  · exact absurd h (by decide)
  · exact h.not_keyword (by decide)

theorem IsName.ne_else {x : String} (h : IsName x) : x ≠ "else" := IsType.ne_else (.inr h)

theorem Statement.starts (h : Statement ws c) : ∃ x us, ws = word x :: us ∧ x ≠ "else" := by
  cases h with
  | declare ht _ _ => exact ⟨_, _, rfl, IsType.ne_else ht⟩
  | assign hx _ => exact ⟨_, _, rfl, IsName.ne_else hx⟩
  | run hp =>
    obtain ⟨x, w, us, rfl, hx, -⟩ := hp.call_starts
    exact ⟨_, _, rfl, IsName.ne_else hx⟩
  | branch _ _ _ => exact ⟨_, _, rfl, by decide⟩
  | loop _ _ => exact ⟨_, _, rfl, by decide⟩

/-- Where a branch ends. -/
def NoElse (rest : List Atom) : Prop := ∀ w ∈ rest.head?, w ≠ word "else"

theorem Statements.noElse {ss : List Command} (h : Statements ws ss) :
    NoElse (ws ++ symbol "\x7d" :: r) := by
  intro w hw
  cases h with
  | nil =>
    obtain rfl := Option.some.inj hw
    exact symbol_ne_word
  | cons hs _ =>
    obtain ⟨x, us, rfl, hx⟩ := hs.starts
    obtain rfl := Option.some.inj hw
    simpa using hx

theorem Initializer.unique {ws' : List Atom} {o o' : Option Term} (h : Initializer ws o)
    (h' : Initializer ws' o') (he : ws ++ symbol ";" :: r = ws' ++ symbol ";" :: r') :
    ws = ws' ∧ o = o' := by
  cases h with
  | none =>
    cases h' with
    | none => exact ⟨rfl, rfl⟩
    | some _ => simp at he
  | some hl =>
    cases h' with
    | none => simp at he
    | some hl' =>
      obtain ⟨rfl, rfl⟩ := hl.unique hl' (List.cons.inj he).2 (ends_symbol (by simp))
        (ends_symbol (by simp))
      exact ⟨rfl, rfl⟩

mutual

theorem Statement.unique : {ws ws' r r' : List Atom} → {c c' : Command} → Statement ws c →
    Statement ws' c' → ws ++ r = ws' ++ r' → NoElse r → NoElse r' → ws = ws' ∧ c = c'
  | _, ws', r, r', _, c', .declare _ _ hi, h', he, hr, hr' => by
    obtain ⟨vs, initial, hi', rfl, rfl⟩ := h'.of_declare he
    simp only [List.cons_append, List.cons.injEq, true_and, List.append_assoc] at he
    obtain ⟨rfl, rfl⟩ := hi.unique hi' he
    exact ⟨rfl, rfl⟩
  | _, ws', r, r', _, c', .assign _ hl, h', he, hr, hr' => by
    obtain ⟨vs, t, hl', rfl, rfl⟩ := h'.of_assign he
    simp only [List.cons_append, List.cons.injEq, true_and, List.append_assoc] at he
    obtain ⟨rfl, rfl⟩ := hl.unique hl' he (ends_symbol (by simp)) (ends_symbol (by simp))
    exact ⟨rfl, rfl⟩
  | _, ws', r, r', _, c', .run hp, h', he, hr, hr' => by
    rw [List.append_assoc] at he
    obtain ⟨vs, host, args, hp', rfl, rfl⟩ := h'.of_run hp he
    rw [List.append_assoc] at he
    obtain ⟨rfl, ht⟩ := hp.unique hp' he (ends_symbol (by simp)) (@ends_symbol 0 _ _ (by simp))
    rw [ht]
    exact ⟨rfl, rfl⟩
  | _, ws', r, r', _, c', .branch hc hy hn, h', he, hr, hr' => by
    obtain ⟨cs, ys, ns, test, yes, no, hc', hy', hn', rfl, rfl⟩ := h'.of_if he
    simp only [List.cons_append, List.cons.injEq, true_and, List.append_assoc] at he
    obtain ⟨rfl, rfl⟩ := hc.unique hc' he (ends_symbol (by simp)) (ends_symbol (by simp))
    simp only [List.append_cancel_left_eq, List.cons.injEq, true_and] at he
    obtain ⟨rfl, rfl⟩ := hy.unique hy' he
    simp only [List.append_cancel_left_eq, List.cons.injEq, true_and] at he
    obtain ⟨rfl, rfl⟩ := hn.unique hn' he hr hr'
    exact ⟨rfl, rfl⟩
  | _, ws', r, r', _, c', .loop hc hb, h', he, hr, hr' => by
    obtain ⟨cs, bs, test, body, hc', hb', rfl, rfl⟩ := h'.of_while he
    simp only [List.cons_append, List.cons.injEq, true_and, List.append_assoc] at he
    obtain ⟨rfl, rfl⟩ := hc.unique hc' he (ends_symbol (by simp)) (ends_symbol (by simp))
    simp only [List.append_cancel_left_eq, List.cons.injEq, true_and] at he
    obtain ⟨rfl, rfl⟩ := hb.unique hb' he
    exact ⟨rfl, rfl⟩
termination_by structural _ _ _ _ _ _ h => h

theorem Otherwise.unique : {ws ws' r r' : List Atom} → {o o' : Option (List Command)} →
    Otherwise ws o → Otherwise ws' o' → ws ++ r = ws' ++ r' → NoElse r → NoElse r' →
    ws = ws' ∧ o = o'
  | _, ws', r, r', _, o', .none, h', he, hr, hr' => by
    cases h' with
    | none => exact ⟨rfl, rfl⟩
    | some _ =>
      rw [List.nil_append] at he
      exact absurd rfl (hr (word "else") (by simp [he]))
  | _, ws', r, r', _, o', .some h, h', he, hr, hr' => by
    cases h' with
    | none =>
      rw [List.nil_append] at he
      exact absurd rfl (hr' (word "else") (by simp [← he]))
    | some h' =>
      simp only [List.cons_append, List.cons.injEq, true_and, List.append_assoc] at he
      obtain ⟨rfl, rfl⟩ := h.unique h' he
      exact ⟨rfl, rfl⟩
termination_by structural _ _ _ _ _ _ h => h

theorem Statements.unique : {ws ws' r r' : List Atom} → {ss ss' : List Command} →
    Statements ws ss → Statements ws' ss' →
    ws ++ symbol "\x7d" :: r = ws' ++ symbol "\x7d" :: r' → ws = ws' ∧ ss = ss'
  | _, ws', r, r', _, ss', .nil, h', he => by
    cases h' with
    | nil => exact ⟨rfl, rfl⟩
    | cons hs' _ =>
      obtain ⟨x, us, rfl, -⟩ := hs'.starts
      simp at he
  | _, ws', r, r', _, ss', .cons hs hss, h', he => by
    cases h' with
    | nil =>
      obtain ⟨x, us, hx, -⟩ := hs.starts
      simp [hx] at he
    | cons hs' hss' =>
      rw [List.append_assoc, List.append_assoc] at he
      obtain ⟨rfl, rfl⟩ := hs.unique hs' he hss.noElse hss'.noElse
      obtain ⟨rfl, rfl⟩ := hss.unique hss' (List.append_cancel_left he)
      exact ⟨rfl, rfl⟩
termination_by structural _ _ _ _ _ _ h => h

end

theorem CompilationUnit.unique {p p' : Program} (h : CompilationUnit ws p)
    (h' : CompilationUnit ws p') : p = p' := by
  cases h with
  | @mk x vs ss _ hss =>
    generalize he : opening x ++ (vs ++ [symbol "\x7d", symbol "\x7d"]) = ws at h'
    cases h' with
    | mk _ hss' =>
      simp only [opening, List.cons_append, List.nil_append, List.cons.injEq, word_inj, true_and]
        at he
      obtain ⟨rfl, he⟩ := he
      obtain ⟨-, rfl⟩ := hss.unique hss' he
      rfl

end Grammar

/-- A text has one reading at most. -/
theorem ReadsAs.unique {text : String} {p p' : Program} (h : ReadsAs text p)
    (h' : ReadsAs text p') : p = p' := by
  obtain ⟨ws, hws, hp⟩ := h
  obtain ⟨ws', hws', hp'⟩ := h'
  obtain rfl := hws.unique hws'
  exact hp.unique hp'

end Java

end LetLang
