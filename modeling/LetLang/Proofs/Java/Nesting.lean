import LetLang.Proofs.Java.Commands
import LetLang.Proofs.Java.Flat

/-! Lines and braces. What stands on a line besides its braces has none, so a line closes one that
is open, or opens one, or does both, or neither. It is padded to the level of the braces that are
open around it. -/

namespace LetLang.Java

open Rules
open Text (Line)

/-- Opening braces less closing ones. -/
def braceDepth (cs : List Char) : Int := (cs.count '\x7b' : Int) - cs.count '\x7d'

theorem braceDepth_append (cs ds : List Char) :
    braceDepth (cs ++ ds) = braceDepth cs + braceDepth ds := by
  simp only [braceDepth, List.count_append]
  omega

theorem Flat.count_eq {cs : List Char} (h : Flat cs) {c : Char} (hc : isFlat c = false) :
    cs.count c = 0 := by
  rw [List.count_eq_zero]
  intro hmem
  rw [h c hmem] at hc
  cases hc

theorem Flat.braceDepth_eq {cs : List Char} (h : Flat cs) : braceDepth cs = 0 := by
  rw [braceDepth, h.count_eq (by decide), h.count_eq (by decide)]
  rfl

theorem Flat.not_mem {cs : List Char} (h : Flat cs) : '\n' ∉ cs := fun hmem =>
  absurd (h _ hmem) (by decide)

/-- A line without its break. -/
def padded (indent : Nat) (l : Line) : List Char :=
  List.replicate (l.level * indent) ' ' ++ l.text.toList

theorem laidOut_eq (indent : Nat) (l : Line) : laidOut indent l = padded indent l ++ ['\n'] := by
  rw [laidOut, padded, List.append_assoc]

theorem flat_replicate (n : Nat) : Flat (List.replicate n ' ') := by
  intro c hc
  rw [List.eq_of_mem_replicate hc]
  decide

/-- The line is padded to its level, of which a brace in front is already outside, and it ends as a
statement or with a brace. -/
structure Indented (indent : Nat) (depth : Int) (line : List Char) : Prop where
  padding : ∃ (n : Nat) (c : Char) (rest : List Char), line = List.replicate n ' ' ++ c :: rest ∧
    c ≠ ' ' ∧ (n : Int) = indent * (depth - if c = '\x7d' then 1 else 0)
  ending : ∃ init c, line = init ++ [c] ∧ c ∈ [';', '\x7b', '\x7d']

/-! One line. -/

/-- The line leads from one number of open braces to another, and at least `floor` braces are open
all along. -/
inductive Step (floor : Nat) : Nat → Line → Nat → Prop
  | blank {d : Nat} : Step floor d .blank d
  | plain {d : Nat} {cs : List Char} {text : String} :
      Body cs → text.toList = cs ++ [';'] → Step floor d ⟨d, text⟩ d
  | opens {d : Nat} {cs : List Char} {text : String} :
      Body cs → text.toList = cs ++ ['\x7b'] → Step floor d ⟨d, text⟩ (d + 1)
  | closes {d : Nat} : floor ≤ d → Step floor (d + 1) ⟨d, "\x7d"⟩ d
  | reopens {d : Nat} : floor ≤ d → Step floor (d + 1) ⟨d, "\x7d else \x7b"⟩ (d + 1)

namespace Step

variable {floor d d' : Nat} {l : Line}

theorem mono {floor' : Nat} (h : Step floor d l d') (hle : floor' ≤ floor) :
    Step floor' d l d' := by
  cases h with
  | blank => exact .blank
  | plain hb ht => exact .plain hb ht
  | opens hb ht => exact .opens hb ht
  | closes hf => exact .closes (Nat.le_trans hle hf)
  | reopens hf => exact .reopens (Nat.le_trans hle hf)

theorem floor_le (h : Step floor d l d') (hd : floor ≤ d) : floor ≤ d' := by
  cases h with
  | opens _ _ => exact Nat.le_succ_of_le hd
  | closes hf => exact hf
  | _ => exact hd

theorem braceDepth_padded (h : Step floor d l d') (indent : Nat) :
    braceDepth (padded indent l) = d' - d := by
  rw [padded, braceDepth_append, (flat_replicate _).braceDepth_eq]
  cases h with
  | blank => simp [Line.blank, braceDepth]
  | plain hb ht =>
    have hstop : braceDepth [';'] = 0 := rfl
    rw [ht, braceDepth_append, hb.flat.braceDepth_eq, hstop]
    omega
  | opens hb ht =>
    have hopen : braceDepth ['\x7b'] = 1 := rfl
    rw [ht, braceDepth_append, hb.flat.braceDepth_eq, hopen]
    omega
  | closes _ =>
    have hclose : braceDepth "\x7d".toList = -1 := by decide
    rw [hclose]
    omega
  | reopens _ =>
    have hboth : braceDepth "\x7d else \x7b".toList = 0 := by decide
    rw [hboth]
    omega

/-- A line closes one brace at most, and only one that is open above the floor. -/
theorem count_laidOut (h : Step floor d l d') (hd : floor ≤ d) (indent : Nat) :
    floor + (laidOut indent l).count '\x7d' ≤ d := by
  have hpad : (List.replicate (l.level * indent) ' ').count '\x7d' = 0 :=
    (flat_replicate _).count_eq (by decide)
  rw [laidOut, List.count_append, List.count_append, hpad]
  cases h with
  | blank => exact hd
  | plain hb ht =>
    rw [ht, List.count_append, hb.flat.count_eq (by decide)]
    exact hd
  | opens hb ht =>
    rw [ht, List.count_append, hb.flat.count_eq (by decide)]
    exact hd
  | closes hf =>
    have hclose : "\x7d".toList.count '\x7d' + ['\n'].count '\x7d' = 1 := by decide
    dsimp only
    omega
  | reopens hf =>
    have hboth : "\x7d else \x7b".toList.count '\x7d' + ['\n'].count '\x7d' = 1 := by decide
    dsimp only
    omega

theorem floor_le_within (h : Step floor d l d') (hd : floor ≤ d) {indent : Nat} {cs : List Char}
    (hcs : cs <+: laidOut indent l) : (floor : Int) ≤ d + braceDepth cs := by
  have hcount := hcs.count_le '\x7d'
  have hline := h.count_laidOut hd indent
  rw [braceDepth]
  omega

theorem not_mem_padded (h : Step floor d l d') (indent : Nat) : '\n' ∉ padded indent l := by
  intro hmem
  rw [padded, List.mem_append] at hmem
  rcases hmem with hmem | hmem
  · exact (flat_replicate _).not_mem hmem
  cases h with
  | blank => cases hmem
  | plain hb ht =>
    rw [ht, List.mem_append] at hmem
    rcases hmem with hmem | hmem
    · exact hb.flat.not_mem hmem
    · exact absurd hmem (by decide)
  | opens hb ht =>
    rw [ht, List.mem_append] at hmem
    rcases hmem with hmem | hmem
    · exact hb.flat.not_mem hmem
    · exact absurd hmem (by decide)
  | closes _ => exact absurd hmem (by decide : '\n' ∉ "\x7d".toList)
  | reopens _ => exact absurd hmem (by decide : '\n' ∉ "\x7d else \x7b".toList)

theorem indented_of_body {cs text : List Char} {c : Char} (hb : Body cs) (ht : text = cs ++ [c])
    (hc : c ∈ [';', '\x7b', '\x7d']) (indent : Nat) :
    Indented indent d (List.replicate (d * indent) ' ' ++ text) := by
  subst ht
  obtain ⟨first, hfirst, hspace⟩ := (Option.any_eq_true _ _).1 hb.head
  obtain ⟨rest, rfl⟩ := List.head?_eq_some_iff.1 hfirst
  constructor
  · refine ⟨d * indent, first, rest ++ [c], rfl, of_decide_eq_true hspace, ?_⟩
    have hbrace : first ≠ '\x7d' := by
      intro he
      have := hb.flat first List.mem_cons_self
      rw [he] at this
      exact absurd this (by decide)
    rw [if_neg hbrace, Int.sub_zero, Int.natCast_mul, Int.mul_comm]
  · exact ⟨_, c, (List.append_assoc ..).symm, hc⟩

theorem indented_of_brace {text rest init : List Char} {c : Char} (ht : text = '\x7d' :: rest)
    (hend : text = init ++ [c]) (hc : c ∈ [';', '\x7b', '\x7d']) (indent : Nat) :
    Indented indent (d + 1 : Nat) (List.replicate (d * indent) ' ' ++ text) := by
  constructor
  · refine ⟨d * indent, '\x7d', rest, by rw [ht], by decide, ?_⟩
    have hlevel : ((d + 1 : Nat) : Int) - 1 = d := by omega
    rw [if_pos rfl, hlevel, Int.natCast_mul, Int.mul_comm]
  · exact ⟨List.replicate (d * indent) ' ' ++ init, c, by rw [hend, List.append_assoc], hc⟩

theorem indented (h : Step floor d l d') (hl : l ≠ .blank) (indent : Nat) :
    Indented indent d (padded indent l) := by
  rw [padded]
  cases h with
  | blank => exact absurd rfl hl
  | plain hb ht => exact indented_of_body hb ht (by decide) indent
  | opens hb ht => exact indented_of_body hb ht (by decide) indent
  | closes _ =>
    have htext : "\x7d".toList = [] ++ ['\x7d'] := by decide
    exact indented_of_brace htext htext (by decide) indent
  | reopens _ =>
    have htext : "\x7d else \x7b".toList = '\x7d' :: " else \x7b".toList := by decide
    have hend : "\x7d else \x7b".toList = "\x7d else ".toList ++ ['\x7b'] := by decide
    exact indented_of_brace htext hend (by decide) indent

end Step

/-! Lines after each other. -/

inductive Nests (floor : Nat) : Nat → List Line → Nat → Prop
  | nil {d : Nat} : Nests floor d [] d
  | cons {d m d' : Nat} {l : Line} {ls : List Line} :
      Step floor d l m → Nests floor m ls d' → Nests floor d (l :: ls) d'

namespace Nests

variable {floor d m d' : Nat} {ls ms : List Line}

theorem append (h : Nests floor d ls m) (h' : Nests floor m ms d') :
    Nests floor d (ls ++ ms) d' := by
  induction h with
  | nil => exact h'
  | cons hl _ ih => exact .cons hl (ih h')

theorem single {l : Line} (h : Step floor d l d') : Nests floor d [l] d' := .cons h .nil

theorem mono {floor' : Nat} (h : Nests floor d ls d') (hle : floor' ≤ floor) :
    Nests floor' d ls d' := by
  induction h with
  | nil => exact .nil
  | cons hl _ ih => exact .cons (hl.mono hle) ih

theorem braceDepth_eq (h : Nests floor d ls d') (indent : Nat) :
    braceDepth (ls.map (padded indent)).flatten = d' - d := by
  induction h with
  | nil =>
    rw [Int.sub_self]
    rfl
  | cons hl _ ih =>
    rw [List.map_cons, List.flatten_cons, braceDepth_append, hl.braceDepth_padded, ih]
    omega

theorem not_mem_padded (h : Nests floor d ls d') (indent : Nat) :
    ∀ l ∈ ls, '\n' ∉ padded indent l := by
  induction h with
  | nil => nofun
  | cons hl _ ih => exact List.forall_mem_cons.2 ⟨hl.not_mem_padded indent, ih⟩

/-- Wherever the lines are cut, at least `floor` braces are open. -/
theorem split (h : Nests floor d ls d') (hd : floor ≤ d) {before after : List Line}
    (hls : ls = before ++ after) :
    ∃ m, floor ≤ m ∧ Nests floor d before m ∧ Nests floor m after d' := by
  induction before generalizing d ls with
  | nil =>
    subst hls
    exact ⟨d, hd, .nil, h⟩
  | cons l before ih =>
    subst hls
    cases h with
    | cons hl h =>
      obtain ⟨m, hm, hbefore, hafter⟩ := ih h (hl.floor_le hd) rfl
      exact ⟨m, hm, .cons hl hbefore, hafter⟩

/-- The same at any place of the text. -/
theorem floor_le_within (h : Nests floor d ls d') (hd : floor ≤ d) {indent : Nat} {cs : List Char}
    (hcs : cs <+: ls.flatMap (laidOut indent)) : (floor : Int) ≤ d + braceDepth cs := by
  induction h generalizing cs with
  | nil =>
    rw [List.prefix_nil.1 hcs]
    have hnil : braceDepth [] = 0 := rfl
    omega
  | @cons d m d' l ls hl _ ih =>
    rw [List.flatMap_cons] at hcs
    have hdepth : braceDepth (laidOut indent l) = m - d := by
      have hbreak : braceDepth ['\n'] = 0 := rfl
      rw [laidOut_eq, braceDepth_append, hl.braceDepth_padded, hbreak]
      omega
    -- the place is on this line or on a later one
    rcases List.prefix_or_prefix_of_prefix hcs (List.prefix_append _ _) with hhere | ⟨ds, rfl⟩
    · exact hl.floor_le_within hd hhere
    · have hlater := ih (hl.floor_le hd) ((List.prefix_append_right_inj _).1 hcs)
      rw [braceDepth_append, hdepth]
      omega

end Nests

/-! The lines of a program. -/

section

variable {floor d : Nat} {text : String}

theorem Step.terminated (h : Body text.toList) : Step floor d ⟨d, text ++ ";"⟩ d :=
  .plain h String.toList_append

theorem Step.head {keyword : String} (h : Body keyword.toList) (h' : Flat text.toList) :
    Step floor d ⟨d, keyword ++ text ++ ") \x7b"⟩ (d + 1) := by
  have hclose : Flat ") ".toList := by decide
  apply Step.opens ((h.append h').append hclose)
  have hsplit : ") \x7b".toList = ") ".toList ++ ['\x7b'] := by decide
  rw [String.toList_append, String.toList_append, hsplit, List.append_assoc, List.append_assoc,
    List.append_assoc]

theorem body_declaration {ty x : String} (ht : Body ty.toList) (hx : IsTidy x) :
    Body (ty ++ " " ++ x).toList := by
  have hspace : Flat " ".toList := by decide
  rw [String.toList_append, String.toList_append]
  exact (ht.append hspace).append hx.flat

theorem body_assignment {target : String} (h : Body target.toList) (h' : Flat text.toList) :
    Body (target ++ " = " ++ text).toList := by
  have hsign : Flat " = ".toList := by decide
  rw [String.toList_append, String.toList_append]
  exact (h.append hsign).append h'

end

section

variable {catalog : Catalog} {floor : Nat}

mutual

theorem nests_stmt (hcatalog : HostNamed catalog) {env env' : Env} : {s : Stmt .parsed} →
    {s' : Stmt .typed} → StmtTyped catalog env s s' env' → (Node.stmt s).Names IsTidy →
    ∀ level, floor ≤ level → Nests floor level (stmt catalog level s') level
  | _, _, .expr hc he, hnames, level, _ => by
    have he' := hnames.part (List.mem_singleton.2 rfl)
    cases he with
    | call hs hargs =>
      have htexts := flat_exprs hcatalog hargs he'.args
      exact .single (.terminated (body_call (hcatalog.function hs) htexts))
    | _ => cases hc
  | _, _, @StmtTyped.declaration _ _ _ _ t _ _ _ _ _ _ hinitial _, hnames, level, _ => by
    have hname := (hnames.part List.mem_cons_self).self
    have hbody := body_declaration (hcatalog.type t).body hname
    cases hinitial with
    | none => exact .single (.terminated hbody)
    | some he _ =>
      have hflat := flat_expr hcatalog he
        (hnames.part (List.mem_cons_of_mem _ (List.mem_cons_of_mem _ (List.mem_singleton.2 rfl))))
      exact .single (.terminated (body_assignment hbody hflat))
  | _, _, .assignment _ he _, hnames, level, _ => by
    have hname := (hnames.part List.mem_cons_self).self
    have hflat := flat_expr hcatalog he
      (hnames.part (List.mem_cons_of_mem _ (List.mem_singleton.2 rfl)))
    exact .single (.terminated (body_assignment hname hflat))
  | _, _, @StmtTyped.branch _ _ _ _ _ _ yes no _ no' _ hc _ _ hyes hno, hnames, level, hle => by
    have htest := flat_expr hcatalog hc (hnames.part List.mem_cons_self)
    have hparts : ∀ s ∈ yes ++ no, (Node.stmt s).Names IsTidy := by
      intro s hs
      apply hnames.part (List.mem_cons_of_mem _ _)
      rw [← List.map_append]
      exact List.mem_map_of_mem hs
    obtain ⟨hyesNames, hnoNames⟩ := List.forall_mem_append.1 hparts
    have hyes' := nests_block hcatalog hyes hyesNames (level + 1) (Nat.le_succ_of_le hle)
    have hno' := nests_block hcatalog hno hnoNames (level + 1) (Nat.le_succ_of_le hle)
    have hend : Nests floor (level + 1) [⟨level, "\x7d"⟩] level := .single (.closes hle)
    -- the line between the two blocks closes the first one and opens the second
    have hrest : Nests floor (level + 1)
        ((if no'.isEmpty then []
          else ⟨level, "\x7d else \x7b"⟩ :: block catalog (level + 1) no') ++ [⟨level, "\x7d"⟩])
        level := by
      split
      · exact hend
      · exact .cons (.reopens hle) (hno'.append hend)
    rw [stmt, List.append_assoc]
    exact .cons (.head (by constructor <;> decide) htest) (hyes'.append hrest)
  | _, _, .loop hc _ hbody, hnames, level, hle => by
    have htest := flat_expr hcatalog hc (hnames.part List.mem_cons_self)
    have hparts := nests_block hcatalog hbody (fun s hs =>
      hnames.part (List.mem_cons_of_mem _ (List.mem_map_of_mem hs))) (level + 1)
      (Nat.le_succ_of_le hle)
    exact .cons (.head (by constructor <;> decide) htest)
      (hparts.append (.single (.closes hle)))

theorem nests_block (hcatalog : HostNamed catalog) {env env' : Env} : {ss : Block .parsed} →
    {ss' : Block .typed} → BlockTyped catalog env ss ss' env' →
    (∀ s ∈ ss, (Node.stmt s).Names IsTidy) →
    ∀ level, floor ≤ level → Nests floor level (block catalog level ss') level
  | _, _, .nil, _, _, _ => .nil
  | _, _, .cons h hss, hnames, level, hle => by
    obtain ⟨hname, hrest⟩ := List.forall_mem_cons.1 hnames
    exact (nests_stmt hcatalog h hname level hle).append (nests_block hcatalog hss hrest level hle)

end

end

end LetLang.Java
