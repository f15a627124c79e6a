import LetLang.Proofs.Tree.Places
import LetLang.Proofs.Token.Lexemes

/-!
The nodes of a tree: its names, expressions and statements. The parts of a node stand one after the
other on its lexemes, so their spans are inside the span of the node and apart from each other. What
holds for the parts of a node holds for whatever is within it.
-/

namespace LetLang

inductive Node where
  | name (x : Ident)
  | expr (e : Expr .parsed)
  | stmt (s : Stmt .parsed)

namespace Node

def span : Node → Span
  | name x => x.span
  | expr e => e.span
  | stmt s => s.span

/-- From left to right. -/
def parts : Node → List Node
  | name _ => []
  | expr (.literal _ _ _) => []
  | expr (.group inner _ _) => [expr inner]
  | expr (.binary _ lhs rhs _ _) => [expr lhs, expr rhs]
  | expr (.var x _ _) => [name x]
  | expr (.call x args _ _ _) => name x :: args.map expr
  | stmt (.expr e _) => [expr e]
  | stmt (.declaration x ty initial _) => name x :: name ty :: initial.toList.map expr
  | stmt (.assignment x e _) => [name x, expr e]
  | stmt (.branch c yes no _) => expr c :: (yes.map stmt ++ no.map stmt)
  | stmt (.loop c body _) => expr c :: body.map stmt

/-- The lists of statements that a node holds. -/
def blocks : Node → List (Block .parsed)
  | stmt (.branch _ yes no _) => [yes, no]
  | stmt (.loop _ body _) => [body]
  | _ => []

/-- One of these nodes, or within a part of one. -/
inductive Within (roots : List Node) : Node → Prop
  | root {n : Node} : n ∈ roots → Within roots n
  | part {n m : Node} : Within roots n → m ∈ n.parts → Within roots m

theorem Within.of_part {k m n : Node} (h : Within [m] k) (hm : m ∈ n.parts) : Within [n] k := by
  induction h with
  | root hk =>
    obtain rfl := List.mem_singleton.1 hk
    exact .part (.root (List.mem_singleton.2 rfl)) hm
  | part _ hp ih => exact .part ih hp

theorem Within.of_mem {roots : List Node} {n root : Node} (h : Within [root] n)
    (hroot : root ∈ roots) : Within roots n := by
  induction h with
  | root hn =>
    obtain rfl := List.mem_singleton.1 hn
    exact .root hroot
  | part _ hm ih => exact .part ih hm

/-- The lexemes of a node. -/
def At (us : List Lexeme) : Node → Prop
  | name x => us = [⟨.name x.name, x.span⟩]
  | expr e => ExprAt 0 us e
  | stmt s => StmtAt us s

end Node

/-- Nodes one after the other, with any lexemes before, between and after them. -/
inductive Along : List Lexeme → List Node → Prop
  | nil : Along [] []
  | skip {t : Lexeme} {ts : List Lexeme} {ns : List Node} : Along ts ns → Along (t :: ts) ns
  | node {us ts : List Lexeme} {n : Node} {ns : List Node} :
      n.At us → Along ts ns → Along (us ++ ts) (n :: ns)

namespace Along

variable {us vs : List Lexeme} {ns ms : List Node}

theorem append (h : Along us ns) (h' : Along vs ms) : Along (us ++ vs) (ns ++ ms) := by
  induction h with
  | nil => exact h'
  | skip _ ih => exact ih.skip
  | node hn _ ih =>
    rw [List.append_assoc]
    exact .node hn ih

theorem single {n : Node} (h : n.At us) : Along us [n] := by
  simpa using Along.node h .nil

theorem name {x : String} {span : Span} (h : Along us ns) :
    Along (⟨.name x, span⟩ :: us) (.name ⟨x, span⟩ :: ns) :=
  @Along.node [⟨.name x, span⟩] us (.name ⟨x, span⟩) ns rfl h

/-- Each of the nodes has its own stretch. -/
theorem exists_at {n : Node} (h : Along us ns) (hn : n ∈ ns) :
    ∃ before mid after, us = before ++ (mid ++ after) ∧ n.At mid := by
  induction h with
  | nil => cases hn
  | skip _ ih =>
    obtain ⟨before, mid, after, rfl, h⟩ := ih hn
    exact ⟨_ :: before, mid, after, rfl, h⟩
  | @node us ts m ns hm _ ih =>
    rcases List.mem_cons.1 hn with rfl | hn
    · exact ⟨[], us, ts, rfl, hm⟩
    · obtain ⟨before, mid, after, rfl, h⟩ := ih hn
      exact ⟨us ++ before, mid, after, by simp, h⟩

end Along

/-! Where the parts of a node stand. -/

theorem ArgumentsAt.along {us : List Lexeme} {es : List (Expr .parsed)} :
    ArgumentsAt us es → Along us (es.map .expr)
  | .nil => .nil
  | .last h => .single h
  | .more h hmore => .node h hmore.along.skip

theorem ExprAt.along {n : Nat} {us : List Lexeme} {e : Expr .parsed} :
    ExprAt n us e → Along us (Node.expr e).parts
  | .tighter h => h.along
  | .chain _ hl hr _ => .node (hl.mono (Nat.zero_le _)) (.skip (.single (hr.mono (Nat.zero_le _))))
  | .literal _ => .skip .nil
  | .var => .name .nil
  | .call hargs _ => by
    refine .name (.skip ?_)
    simpa using hargs.along.append (.skip .nil)
  | .group h _ => .skip (.node h (.skip .nil))

theorem InitialAt.along {us : List Lexeme} {initial : Option (Expr .parsed)} :
    InitialAt us initial → Along us (initial.toList.map .expr)
  | .none => .nil
  | .some h => .skip (.single h)

theorem BlockAt.along {us : List Lexeme} {ss : Block .parsed} :
    BlockAt us ss → Along us (ss.map .stmt)
  | .nil => .nil
  | .cons h hss => .node h hss.along

theorem ElseAt.along {us : List Lexeme} {ss : Block .parsed} :
    ElseAt us ss → Along us (ss.map .stmt)
  | .none => .nil
  | .some h => h.along.skip

/-- The last lexeme of a statement belongs to none of its parts. -/
theorem StmtAt.along {us : List Lexeme} {s : Stmt .parsed} (h : StmtAt us s) :
    ∃ vs stop, us = vs ++ [stop] ∧ Along vs (Node.stmt s).parts := by
  cases h with
  | expr h _ => exact ⟨_, _, rfl, .single h⟩
  | @declaration _ _ start here colon there _ _ ts _ h _ =>
    exact ⟨⟨_, start⟩ :: ⟨_, here⟩ :: ⟨_, colon⟩ :: ⟨_, there⟩ :: ts, _, rfl,
      .skip (.name (.skip (.name h.along)))⟩
  | @assignment _ here assign _ _ ts _ h _ =>
    exact ⟨⟨_, here⟩ :: ⟨_, assign⟩ :: ts, _, rfl, .name (.skip (.single h))⟩
  | @branch start then' _ _ cs ys ns _ _ _ hc hyes hno _ =>
    exact ⟨⟨.keyword .IF, start⟩ :: (cs ++ ⟨.keyword .THEN, then'⟩ :: (ys ++ ns)), _, by simp; rfl,
      .skip (.node hc (.skip (hyes.along.append hno.along)))⟩
  | @loop start do' _ _ cs bs _ _ hc hbody _ =>
    exact ⟨⟨.keyword .WHILE, start⟩ :: (cs ++ ⟨.keyword .DO, do'⟩ :: bs), _, by simp; rfl,
      .skip (.node hc (.skip hbody.along))⟩

theorem Node.At.along {us : List Lexeme} {n : Node} (h : n.At us) :
    ∃ vs ws, us = vs ++ ws ∧ Along vs n.parts ∧ ((∃ s, n = .stmt s) → ws ≠ []) := by
  cases n with
  | name x => exact ⟨us, [], by simp, by cases h; exact .skip .nil, by simp⟩
  | expr e => exact ⟨us, [], by simp, ExprAt.along h, by simp⟩
  | stmt s =>
    obtain ⟨vs, stop, rfl, hvs⟩ := StmtAt.along h
    exact ⟨vs, [stop], rfl, hvs, by simp⟩

/-- Whatever is within a block has its lexemes there; what is no statement is followed by others. -/
theorem BlockAt.exists_at {ts : List Lexeme} {ss : Block .parsed} {n : Node} (h : BlockAt ts ss)
    (hn : n.Within (ss.map .stmt)) :
    ∃ before us after, ts = before ++ (us ++ after) ∧ n.At us ∧
      ((∀ s, n ≠ .stmt s) → after ≠ []) := by
  induction hn with
  | root hn =>
    obtain ⟨before, us, after, rfl, hat⟩ := h.along.exists_at hn
    obtain ⟨s, -, rfl⟩ := List.mem_map.1 hn
    exact ⟨before, us, after, rfl, hat, fun hs => absurd rfl (hs s)⟩
  | @part n m _ hm ih =>
    obtain ⟨before, us, after, rfl, hat, hafter⟩ := ih
    obtain ⟨vs, ws, rfl, hvs, hws⟩ := hat.along
    obtain ⟨before', us, after', rfl, hat'⟩ := hvs.exists_at hm
    refine ⟨before ++ before', us, after' ++ (ws ++ after), by simp, hat', fun _ hnil => ?_⟩
    simp only [List.append_eq_nil_iff] at hnil
    -- a statement ends with a lexeme that is in none of its parts
    by_cases hs : ∃ s, n = .stmt s
    · exact hws hs hnil.2.1
    · exact hafter (fun s hn => hs ⟨s, hn⟩) hnil.2.2

theorem StmtAt.exists_blockAt {us : List Lexeme} {s : Stmt .parsed} {ss : Block .parsed}
    (h : StmtAt us s) (hss : ss ∈ (Node.stmt s).blocks) :
    ∃ before mid after, us = before ++ (mid ++ after) ∧ BlockAt mid ss := by
  cases h with
  | @branch start then' stop _ cs ys ns _ _ _ _ hyes hno _ =>
    simp only [Node.blocks, List.mem_cons, List.not_mem_nil, or_false] at hss
    rcases hss with rfl | rfl
    · exact ⟨⟨.keyword .IF, start⟩ :: (cs ++ [⟨.keyword .THEN, then'⟩]), ys,
        ns ++ [⟨.keyword .END, stop⟩], by simp, hyes⟩
    · cases hno with
      | none => exact ⟨_, [], [], (List.append_nil _).symm, .nil⟩
      | @some start' ms _ hno =>
        exact ⟨⟨.keyword .IF, start⟩ :: (cs ++ ⟨.keyword .THEN, then'⟩ ::
          (ys ++ [⟨.keyword .ELSE, start'⟩])), ms, [⟨.keyword .END, stop⟩], by simp, hno⟩
  | @loop start do' stop _ cs bs _ _ _ hbody _ =>
    obtain rfl := List.mem_singleton.1 hss
    exact ⟨⟨.keyword .WHILE, start⟩ :: (cs ++ [⟨.keyword .DO, do'⟩]), bs,
      [⟨.keyword .END, stop⟩], by simp, hbody⟩
  | expr | declaration | assignment => cases hss

/-! How far the spans reach. -/

/-- From the start of the first lexeme to the end of the last. -/
structure Extent (us : List Lexeme) (s : Span) : Prop where
  first : ∃ t ∈ us.head?, s.lo = t.span.lo
  last : ∃ t ∈ us.getLast?, s.hi = t.span.hi

theorem InOrder.mid {before mid after : List Lexeme} (h : InOrder (before ++ (mid ++ after))) :
    InOrder mid := (List.pairwise_append.1 (List.pairwise_append.1 h).2.1).1

theorem extent_single (t : Lexeme) : Extent [t] t.span := ⟨⟨t, rfl, rfl⟩, ⟨t, rfl, rfl⟩⟩

theorem Span.lo_le_hi (s : Span) : s.lo ≤ s.hi := Nat.le_add_right ..

namespace Extent

variable {us vs mid : List Lexeme} {a b s : Span}

theorem inside (h : Extent us s) (ho : InOrder us) :
    ∀ t ∈ us, s.lo ≤ t.span.lo ∧ t.span.hi ≤ s.hi := by
  obtain ⟨⟨f, hf, hlo⟩, l, hl, hhi⟩ := h
  obtain ⟨ts, rfl⟩ := List.head?_eq_some_iff.1 hf
  intro t ht
  constructor
  · rcases List.mem_cons.1 ht with rfl | ht
    · exact Nat.le_of_eq hlo
    · have := (List.pairwise_cons.1 ho).1 t ht
      exact hlo ▸ Nat.le_trans f.span.lo_le_hi this
  · obtain ⟨init, hinit⟩ := List.getLast?_eq_some_iff.1 hl
    rw [hinit] at ht ho
    rcases List.mem_append.1 ht with ht | ht
    · have := (List.pairwise_append.1 ho).2.2 t ht l (by simp)
      exact hhi ▸ Nat.le_trans this l.span.lo_le_hi
    · obtain rfl := List.mem_singleton.1 ht
      exact Nat.le_of_eq hhi.symm

theorem mem_first (h : Extent us s) : ∃ t ∈ us, s.lo = t.span.lo :=
  let ⟨t, ht, hlo⟩ := h.first
  ⟨t, List.mem_of_mem_head? ht, hlo⟩

theorem mem_last (h : Extent us s) : ∃ t ∈ us, s.hi = t.span.hi :=
  let ⟨t, ht, hhi⟩ := h.last
  ⟨t, List.mem_of_mem_getLast? ht, hhi⟩

theorem apart (ha : Extent us a) (hb : Extent vs b) (ho : InOrder (us ++ (mid ++ vs))) :
    a.hi ≤ b.lo := by
  obtain ⟨t, ht, ha⟩ := ha.mem_last
  obtain ⟨u, hu, hb⟩ := hb.mem_first
  rw [ha, hb]
  exact (List.pairwise_append.1 ho).2.2 t ht u (List.mem_append_right _ hu)

theorem join (mid : List Lexeme) (ha : Extent us a) (hb : Extent vs b)
    (ho : InOrder (us ++ (mid ++ vs))) (hj : a.join? b = some s) :
    Extent (us ++ (mid ++ vs)) s := by
  have hapart := ha.apart hb ho
  have hlo := a.lo_le_hi
  have hhi := b.lo_le_hi
  obtain ⟨hl, hh, -⟩ := Span.ofBounds?_eq_some_iff.1 hj
  rw [Nat.min_eq_left (by omega)] at hl
  rw [Nat.max_eq_right (by omega)] at hh
  obtain ⟨f, hf, hfirst⟩ := ha.first
  obtain ⟨l, hl', hlast⟩ := hb.last
  refine ⟨⟨f, ?_, hl.trans hfirst⟩, l, ?_, hh.trans hlast⟩
  · simp [List.head?_append, Option.mem_def.1 hf]
  · simp [List.getLast?_append, Option.mem_def.1 hl']

end Extent

theorem ExprAt.extent {n : Nat} {us : List Lexeme} {e : Expr .parsed} :
    ExprAt n us e → InOrder us → Extent us e.span
  | .tighter h, ho => h.extent ho
  | @ExprAt.chain op _ ls rs _ _ here _ _ hl hr hjoin, ho => by
    obtain ⟨hls, hrs, -⟩ := List.pairwise_append.1 ho
    exact (hl.extent hls).join [⟨.mark op.mark, here⟩] (hr.extent (List.pairwise_cons.1 hrs).2)
      ho hjoin
  | .literal _, _ => extent_single _
  | .var, _ => extent_single ⟨_, _⟩
  | @ExprAt.call _ span opening close _ ts _ _ hjoin, ho =>
    (extent_single ⟨_, span⟩).join (⟨_, opening⟩ :: ts) (extent_single ⟨_, close⟩) ho hjoin
  | @ExprAt.group span close _ ts _ _ hjoin, ho =>
    (extent_single ⟨_, span⟩).join ts (extent_single ⟨_, close⟩) ho hjoin

theorem StmtAt.extent {us : List Lexeme} {s : Stmt .parsed} (h : StmtAt us s) (ho : InOrder us) :
    Extent us s.span := by
  cases h with
  | @expr _ _ stop _ h hjoin =>
    exact (h.extent (List.pairwise_append.1 ho).1).join [] (extent_single ⟨_, stop⟩) ho hjoin
  | @declaration _ _ start here colon there stop _ ts _ _ hjoin =>
    exact (extent_single ⟨_, start⟩).join (⟨_, here⟩ :: ⟨_, colon⟩ :: ⟨_, there⟩ :: ts)
      (extent_single ⟨_, stop⟩) ho hjoin
  | @assignment _ here assign stop _ ts _ _ hjoin =>
    exact (extent_single ⟨_, here⟩).join (⟨_, assign⟩ :: ts) (extent_single ⟨_, stop⟩) ho hjoin
  | @branch start then' stop _ cs ys ns _ _ _ _ _ _ hjoin =>
    have := (extent_single ⟨.keyword .IF, start⟩).join (cs ++ ⟨.keyword .THEN, then'⟩ :: (ys ++ ns))
      (extent_single ⟨.keyword .END, stop⟩) (by simpa using ho) hjoin
    simpa [Stmt.span] using this
  | @loop start do' stop _ cs bs _ _ _ _ hjoin =>
    have := (extent_single ⟨.keyword .WHILE, start⟩).join (cs ++ ⟨.keyword .DO, do'⟩ :: bs)
      (extent_single ⟨.keyword .END, stop⟩) (by simpa using ho) hjoin
    simpa [Stmt.span] using this

theorem Node.At.extent {us : List Lexeme} {n : Node} (h : n.At us) (ho : InOrder us) :
    Extent us n.span := by
  cases n with
  | name x =>
    obtain rfl : us = [⟨.name x.name, x.span⟩] := h
    exact extent_single ⟨_, x.span⟩
  | expr e => exact ExprAt.extent h ho
  | stmt s => exact StmtAt.extent h ho

/-! Spans of parts. -/

/-- Not outside of another span at either end. -/
def Span.Inside (s whole : Span) : Prop := whole.lo ≤ s.lo ∧ s.hi ≤ whole.hi

theorem Span.Inside.trans {a b c : Span} (h : a.Inside b) (h' : b.Inside c) : a.Inside c :=
  ⟨Nat.le_trans h'.1 h.1, Nat.le_trans h.2 h'.2⟩

/-- Spans inside of another, one after the other. -/
structure Span.Divides (parts : List Span) (whole : Span) : Prop where
  inside : ∀ s ∈ parts, s.Inside whole
  ordered : parts.Pairwise fun a b => a.hi ≤ b.lo

theorem Along.ordered {us : List Lexeme} {ns : List Node} (h : Along us ns) (ho : InOrder us) :
    (ns.map Node.span).Pairwise fun a b => a.hi ≤ b.lo := by
  induction h with
  | nil => exact .nil
  | skip _ ih => exact ih (List.pairwise_cons.1 ho).2
  | @node us ts n ns hn hns ih =>
    obtain ⟨hus, hts, happart⟩ := List.pairwise_append.1 ho
    refine List.pairwise_cons.2 ⟨fun s hs => ?_, ih hts⟩
    obtain ⟨m, hm, rfl⟩ := List.mem_map.1 hs
    obtain ⟨before, mid, after, rfl, hat⟩ := hns.exists_at hm
    obtain ⟨t, ht, hlast⟩ := (hn.extent hus).mem_last
    obtain ⟨u, hu, hfirst⟩ := (hat.extent (InOrder.mid hts)).mem_first
    rw [hlast, hfirst]
    exact happart t ht u (by simp [hu])

theorem Along.inside {us : List Lexeme} {ns : List Node} {whole : Span} (h : Along us ns)
    (ho : InOrder us) (hus : ∀ t ∈ us, whole.lo ≤ t.span.lo ∧ t.span.hi ≤ whole.hi) :
    ∀ s ∈ ns.map Node.span, s.Inside whole := by
  intro s hs
  obtain ⟨n, hn, rfl⟩ := List.mem_map.1 hs
  obtain ⟨before, mid, after, rfl, hat⟩ := h.exists_at hn
  have hextent := hat.extent ho.mid
  obtain ⟨t, ht, hfirst⟩ := hextent.mem_first
  obtain ⟨u, hu, hlast⟩ := hextent.mem_last
  rw [Span.Inside, hfirst, hlast]
  exact ⟨(hus t (by simp [ht])).1, (hus u (by simp [hu])).2⟩

/-- The parts of a node divide it. -/
theorem Node.At.divides {us : List Lexeme} {n : Node} (h : n.At us) (ho : InOrder us) :
    Span.Divides (n.parts.map Node.span) n.span := by
  have hinside := (h.extent ho).inside ho
  obtain ⟨vs, ws, rfl, hvs, -⟩ := h.along
  have hovs := (List.pairwise_append.1 ho).1
  exact ⟨hvs.inside hovs fun t ht => hinside t (List.mem_append_left _ ht), hvs.ordered hovs⟩

end LetLang
