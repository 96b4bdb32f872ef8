import Mathlib.Data.List.Perm.Subperm
import RefLifetime.Proofs.Visits

/-!
# The course of an analysis

Every state that an analysis goes through has a memory that only grows towards the one at its end.
So what is known of the end, that an expression is remembered for one demand or for the two that
require nothing beyond its block, holds at every point.
-/

namespace RefLifetime

/-! ### States on the way -/

/-- The states that a plan goes through when it is carried out, given those that its visits go
through. -/
inductive Plan.Passes {α : Type} (visit : Visitor)
    (through : Path → Node → Demand → Mood → State → State → Prop) (mood : Mood) :
    Plan α → State → State → Prop
  | now {p : Plan α} {s : State} : Passes visit through mood p s s
  | inside {route : Path} {node : Node} {demand : Demand} {inner : Mood} {next : Scope → Plan α}
      {s t : State} (h : through route node demand (inner.within mood) s t) :
      Passes visit through mood (.visit route node demand inner next) s t
  | after {route : Path} {node : Node} {demand : Demand} {inner : Mood} {next : Scope → Plan α}
      {scope : Scope} {s s' t : State}
      (hv : visit route node demand (inner.within mood) s = .ok scope s')
      (h : Passes visit through mood (next scope) s' t) :
      Passes visit through mood (.visit route node demand inner next) s t
  | lookup {id : Nat} {next : Option Lifetime → Plan α} {s t : State}
      (h : Passes visit through mood (next (s.lifetimes.get? id)) s t) :
      Passes visit through mood (.lookup id next) s t
  | declare {var : Local} {lifetime : Lifetime} {next : Plan α} {s t : State}
      (h : Passes visit through mood next (s.declare var lifetime) t) :
      Passes visit through mood (.declare var lifetime next) s t
  | report {finding : Finding} {next : Plan α} {s t : State}
      (h : Passes visit through mood next
        (s.tell mood (.reported (finding.inRegion mood.region))) t) :
      Passes visit through mood (.report finding next) s t
  | hint {id : Nat} {next : Plan α} {s t : State}
      (h : Passes visit through mood next (s.tell mood (.hinted id)) t) :
      Passes visit through mood (.hint id next) s t

/-- A plan goes through the state that it ends in, if its visits do. -/
theorem Plan.passes_end {α : Type} {visit : Visitor}
    {through : Path → Node → Demand → Mood → State → State → Prop}
    (ht : ∀ route node demand inner s,
      through route node demand inner s (Ending.state (visit route node demand inner s)))
    (mood : Mood) (p : Plan α) (s : State) :
    p.Passes visit through mood s (Ending.state (p.run visit mood s)) := by
  induction p generalizing s with
  | done a => exact .now
  | fail cause => exact .now
  | visit route node demand inner next ih =>
    rw [run_visit]
    have hend := ht route node demand (inner.within mood) s
    cases hk : visit route node demand (inner.within mood) s with
    | ok scope s' => exact .after hk (ih scope s')
    | error e s' =>
      rw [hk] at hend
      exact .inside hend
  | lookup id next ih => exact .lookup (ih _ s)
  | declare var lifetime next ih => exact .declare (ih _)
  | report finding next ih => exact .report (ih _)
  | hint id next ih => exact .hint (ih _)

/-- The computation for a visit that starts in `s` begins in `s'`. -/
def Walker.Opens (w : Walker) (mood : Mood) (path : Path) (demand : Demand) (s s' : State) :
    Node → Prop
  | .stmt _ => s' = s
  | .expr _ => w.remembered s path demand mood.quiet = none ∧
      s' = s.note (.visited path demand mood.quiet false)

/-- The states that a visit goes through: the one that it starts in, those that its computation goes
through, and the one that it ends in. -/
def Walker.Passes (w : Walker) : Nat → Path → Node → Demand → Mood → State → State → Prop
  | 0, path, node, demand, mood, s, t =>
    t = s ∨ t = Ending.state (w.visit 0 mood path node demand s)
  | levels + 1, path, node, demand, mood, s, t =>
    t = s ∨ t = Ending.state (w.visit (levels + 1) mood path node demand s) ∨
      ∃ s', w.Opens mood path demand s s' node ∧
        (Rule.node w.setting node demand).Passes
          (fun route part asked inner => w.visit levels inner (path ++ route) part asked)
          (fun route part asked inner => w.Passes levels (path ++ route) part asked inner) mood s' t

/-- The states that the walk of a body goes through. -/
def Walker.PassesBody (w : Walker) (body : List Stmt) (t : State) : Prop :=
  (Rule.stmts [] body .methodBody).Passes
    (fun route part asked inner => w.visit w.limit inner route part asked) (w.Passes w.limit)
    { region := .ofUnsafe w.setting.method.isUnsafe } w.initial t

/-- A state on the way of a plan stands to the last one as `R` says, if every step respects `R`. -/
theorem Plan.Passes.before {α : Type} {visit : Visitor}
    {through : Path → Node → Demand → Mood → State → State → Prop} {mood : Mood}
    {R : State → State → Prop} (hR : Persistent R)
    (hv : ∀ route node demand inner s, R s (Ending.state (visit route node demand inner s)))
    (ht : ∀ route node demand inner s t, through route node demand inner s t →
      R t (Ending.state (visit route node demand inner s)))
    {p : Plan α} {s t : State} (h : Passes visit through mood p s t) :
    R t (Ending.state (p.run visit mood s)) := by
  induction h with
  | now => exact hR.run mood hv _ _
  | @inside route node demand inner next s t h =>
    rw [run_visit]
    exact hR.andThen (ht route node demand _ s t h) fun scope => hR.run mood hv (next scope)
  | after hv' _ ih =>
    rw [run_visit, hv']
    exact ih
  | lookup _ ih => exact ih
  | declare _ ih => exact ih
  | report _ ih => exact ih
  | hint _ ih => exact ih

namespace Walker

variable (w : Walker) {R : State → State → Prop} (hR : Persistent R)
  (hr : ∀ s path demand reading, R s (State.remember s path demand reading))

include hR hr

/-- A visit ends no earlier than the computation that it opens. -/
theorem visit_after_compute {levels : Nat} {mood : Mood} {path : Path} {node : Node}
    {demand : Demand} {s s' t : State} (ho : w.Opens mood path demand s s' node)
    (h : R t (Ending.state (w.compute levels mood path node demand s'))) :
    R t (Ending.state (w.visit levels mood path node demand s)) := by
  cases node with
  | stmt st =>
    obtain rfl : s' = s := ho
    rw [visit_stmt]
    exact h
  | expr e =>
    obtain ⟨hm, rfl⟩ := ho
    rw [visit_computed w hm]
    exact hR.andThen h fun scope s' => hr s' path demand ⟨scope, mood.quiet⟩

/-- A state on the way of a visit stands to the last one as `R` says. -/
theorem passes_before {levels : Nat} {path : Path} {node : Node} {demand : Demand} {mood : Mood}
    {s t : State} (h : w.Passes levels path node demand mood s t) :
    R t (Ending.state (w.visit levels mood path node demand s)) := by
  induction levels generalizing path node demand mood s t with
  | zero =>
    rcases h with rfl | rfl
    · exact w.visit_respects hR hr 0 mood path node demand t
    · exact hR.refl _
  | succ levels ih =>
    rcases h with rfl | rfl | ⟨s', ho, hp⟩
    · exact w.visit_respects hR hr (levels + 1) mood path node demand t
    · exact hR.refl _
    · refine w.visit_after_compute hR hr ho (hp.before hR ?_ fun _ _ _ _ _ _ h => ih h)
      exact fun route part asked inner s => w.visit_respects hR hr levels inner _ part asked s

/-- A state on the way of the walk of a body stands to the last one as `R` says. -/
theorem passesBody_before {body : List Stmt} {t : State} (h : w.PassesBody body t) :
    R t (Ending.state (w.walkBody body w.initial)) :=
  Plan.Passes.before hR (fun _ part asked inner s => w.visit_respects hR hr _ inner _ part asked s)
    (fun _ _ _ _ _ _ h => w.passes_before hR hr h) h

end Walker

/-- What is remembered is added in front of what was remembered before. -/
theorem State.persistent_memo :
    Persistent fun s t : State => s.memo.entries <:+ t.memo.entries where
  refl _ := List.suffix_refl _
  trans h h' := h.trans h'
  note _ _ := List.suffix_refl _
  declare _ _ _ := List.suffix_refl _

/-! ### Regular demands -/

/-- Regularity is handed down to calm parts. -/
theorem Part.AskedOf.regular {p : Part} (hc : p.Calm) {s : State} {path : Path} {block : Scope}
    {asked : Demand → Prop} (h : Demand.Regular block asked) :
    Demand.Regular (p.block block) (p.AskedOf s path asked) := by
  have hblock (demand : Demand) (hd : p.AskedOf s path asked demand) :
      demand.block = p.block block := by
    obtain ⟨whole, hw, hb, -⟩ := hd
    rw [hb, h.1 whole hw]
  refine ⟨hblock, ?_⟩
  unfold Part.Calm at hc
  cases hk : p.asking with
  | freely =>
    refine .inr fun demand hasked => ?_
    have hb := hblock demand hasked
    obtain ⟨whole, -, -, hd⟩ := hasked
    simp only [hk] at hd
    rw [hd, hb]
  | once f =>
    simp only [hk] at hc
    have hasked {demand : Demand} (hd : p.AskedOf s path asked demand) :
        ∃ whole, asked whole ∧ demand = f whole := by
      obtain ⟨whole, hw, -, hd⟩ := hd
      simp only [hk] at hd
      exact ⟨whole, hw, hd⟩
    rcases h.2 with ⟨only, honly⟩ | hblock
    · refine .inl ⟨f only, fun demand hd => ?_⟩
      obtain ⟨whole, hw, rfl⟩ := hasked hd
      rw [honly whole hw]
    · have hwithin {whole : Demand} (hw : asked whole) : whole = .within whole.mode block := by
        obtain ⟨own, mode, target⟩ := whole
        cases h.1 _ hw
        cases hblock _ hw
        rfl
      rcases hc block with htarget | hsame
      · refine .inr fun demand hd => ?_
        obtain ⟨whole, hw, rfl⟩ := hasked hd
        rw [hwithin hw]
        exact htarget whole.mode
      · refine .inl ⟨f (.within .value block), fun demand hd => ?_⟩
        obtain ⟨whole, hw, rfl⟩ := hasked hd
        rw [hwithin hw]
        exact hsame whole.mode
  | into holder =>
    -- What was answered for the holder is found in memory, so the requirement is always the same.
    cases hg : s.memo.get? (path ++ holder) (.within .value block) with
    | none =>
      refine .inl ⟨.within .value block, ?_⟩
      rintro demand ⟨whole, hw, -, hd⟩
      simp only [hk, h.1 whole hw, hg] at hd
      obtain ⟨-, _, hn, -⟩ := hd
      cases hn
    | some reading =>
      refine .inl ⟨⟨p.block block, .value, reading.scope⟩, ?_⟩
      rintro demand ⟨whole, hw, hb, hd⟩
      simp only [hk, h.1 whole hw, hg] at hb hd
      obtain ⟨hm, found, hf, ht⟩ := hd
      cases hf
      obtain ⟨own, mode, target⟩ := demand
      cases hb
      cases hm
      cases ht
      rfl

/-- The visits of an expression in a node that is regularly asked for are regular. -/
theorem Node.Bounded.regular {setting : Setting} {s : State} {levels : Nat}
    {asked : Demand → Prop} {path : Path} {node : Node} {block own : Scope} {e : Expr}
    {inner : Path} (h : node.Bounded setting s levels asked path)
    (hr : Demand.Regular block asked) (hs : node.Stands setting e own block inner) :
    ∃ asked', Demand.Regular own asked' ∧ ∀ v ∈ s.visitsAt (path ++ inner), asked' v.demand := by
  induction hs generalizing levels asked path with
  | here =>
    refine ⟨asked, hr, fun v hv => ?_⟩
    rw [List.append_nil] at hv
    cases levels with
    | zero => exact (h.1 v hv).2
    | succ levels => exact (h.1 v hv).2
  | @inside node block p inner hp hs ih =>
    rw [← List.append_assoc]
    cases levels with
    | zero =>
      -- No levels are left to enter the node, so that nothing inside it was visited.
      have hpre := List.prefix_append (path ++ p.route) inner
      have hne := Path.ne_of_inside (node.stops_inside setting p hp) hpre
      have hnone := h.2 _ ((List.prefix_append path p.route).trans hpre) hne
      refine ⟨fun _ => False, ⟨fun _ h => h.elim, .inr fun _ h => h.elim⟩, fun v hv => ?_⟩
      rw [hnone] at hv
      cases hv
    | succ levels => exact ih (h.2.2 p hp) (Part.AskedOf.regular (node.stops_calm setting p hp) hr)

/-- Only expressions of the node are visited. -/
theorem Node.Bounded.stands {setting : Setting} {s : State} {levels : Nat}
    {asked : Demand → Prop} {path q : Path} {node : Node}
    (h : node.Bounded setting s levels asked path) (hq : path <+: q) (hv : s.visitsAt q ≠ [])
    (block : Scope) : ∃ inner e own, q = path ++ inner ∧ node.Stands setting e own block inner := by
  have hhere {asked : Demand → Prop} {path : Path} {node : Node} (hown : node.Own s asked path)
      (hv : s.visitsAt path ≠ []) (block : Scope) :
      ∃ inner e own, path = path ++ inner ∧ node.Stands setting e own block inner := by
    obtain ⟨v, hm⟩ := List.exists_mem_of_ne_nil _ hv
    obtain ⟨⟨e, rfl⟩, -⟩ := hown v hm
    exact ⟨[], e, block, (List.append_nil path).symm, .here⟩
  induction levels generalizing asked path node block with
  | zero =>
    by_cases hne : q = path
    · subst hne
      exact hhere h.1 hv block
    · exact absurd (h.2 q hq hne) hv
  | succ levels ih =>
    by_cases hne : q = path
    · subst hne
      exact hhere h.1 hv block
    · have hpart : ∃ p, .part p ∈ node.stops setting ∧ path ++ p.route <+: q := by
        by_contra hno
        exact hv (h.2.1 q hq hne fun p hp hpre => hno ⟨p, hp, hpre⟩)
      obtain ⟨p, hp, hpre⟩ := hpart
      obtain ⟨inner, e, own, rfl, hs⟩ := ih (h.2.2 p hp) hpre (p.block block)
      exact ⟨p.route ++ inner, e, own, List.append_assoc _ _ _, .inside hp hs⟩

/-! ### Whole analyses -/

namespace Walker

/-- When the walk of a body begins, nothing was visited and nothing is remembered. -/
theorem initial_untouched (w : Walker) :
    w.initial.memo = .empty ∧ w.initial.journal.visits = [] := by
  refine w.initial_induction (P := fun s => s.memo = .empty ∧ s.journal.visits = []) ⟨rfl, rfl⟩ ?_
  rintro d - s ⟨hm, hv⟩
  exact ⟨hm, (s.journal.visits_push _).trans (by simp [hv, Event.visit?])⟩

/-- The walk of a body tours its statements in order, also when it fails. -/
theorem walkBody_traced {w : Walker} (hw : w.memoizes = true) (body : List Stmt) :
    w.Traced w.limit [] (Eq .methodBody) (Stop.body body) w.initial
      (Ending.state (w.walkBody body w.initial)) := by
  have hnone (q : Path) : w.initial.visitsAt q = [] := by
    simp [State.visitsAt, Journal.visitsAt, w.initial_untouched.2]
  have hmemo (q : Path) (demand : Demand) : w.initial.memo.get? q demand = none := by
    rw [w.initial_untouched.1]
    rfl
  have horderly : w.initial.Orderly := by
    refine ⟨fun q => ?_, ?_, ?_, fun q demand reading hg => ?_⟩
    · rw [hnone]
      trivial
    · simp [Journal.computed, w.initial_untouched.2]
    · simp [w.initial_untouched.1, Memo.empty]
    · rw [hmemo] at hg
      cases hg
  let mood : Mood := { region := .ofUnsafe w.setting.method.isUnsafe }
  have htouring : w.Touring w.limit mood.quiet [] (Eq .methodBody) (Stop.body body) []
      (Stop.body body) w.initial := by
    refine .start horderly (fun p _ => ?_) (Stop.body_apart body) fun p _ => ?_
    · exact Node.bounded_of_none _ fun q _ => hnone q
    · exact ⟨fun q _ => hnone q, fun q demand _ => hmemo q demand⟩
  have hrun := (Rule.body_tours body).run_charts (Stop.body_apart body) rfl (charts hw w.limit)
    htouring
  exact hrun.state (fun _ _ h => h.traced) fun _ h => h

/-- The end of an analysis is no visit. -/
theorem visits_analyze (w : Walker) (body : List Stmt) :
    (w.analyze body).journal.visits =
      (Ending.state (w.walkBody body w.initial)).journal.visits := by
  unfold analyze EStateM.run
  cases w.walkBody body w.initial with
  | ok _ s => simp [State.note, Journal.visits_push, Event.visit?, Ending.state]
  | error e s => rfl

end Walker

/-- The demands on the expression at `path` among given places and demands. -/
def Demand.among (path : Path) (keys : List (Path × Demand)) : List Demand :=
  (keys.filter (·.1 = path)).map (·.2)

namespace Demand

private theorem mem_among {path : Path} {keys : List (Path × Demand)} {demand : Demand} :
    demand ∈ among path keys ↔ (path, demand) ∈ keys := by
  simp [among]

private theorem nodup_among {keys : List (Path × Demand)} (h : keys.Nodup) (path : Path) :
    (among path keys).Nodup := by
  refine (h.filter _).map_on ?_
  rintro ⟨p, demand⟩ hp ⟨q, asked⟩ hq rfl
  obtain rfl : p = path := by simpa using (List.mem_filter.mp hp).2
  obtain rfl : q = p := by simpa using (List.mem_filter.mp hq).2
  rfl

/-- Two demands make no list of more than two without repetition. -/
theorem length_le_two {demands : List Demand} (hn : demands.Nodup) {block : Scope}
    (h : (∃ only, ∀ demand ∈ demands, demand = only) ∨
      ∀ demand ∈ demands, demand = .within .ref block ∨ demand = .within .value block) :
    demands.length ≤ 2 := by
  rcases h with ⟨only, h⟩ | h
  · have hsub : demands ⊆ [only] := fun demand hd => by simp [h demand hd]
    exact Nat.le_trans (List.Nodup.subperm hn hsub).length_le (by simp)
  · have hsub : demands ⊆ [.within .ref block, .within .value block] :=
      fun demand hd => by simpa using h demand hd
    exact (List.Nodup.subperm hn hsub).length_le

end Demand

/-- The demands on the expression at `path` for which an answer is remembered. -/
def Memo.demandsAt (memo : Memo) (path : Path) : List Demand :=
  Demand.among path (memo.entries.map (·.1))

/-- The demands on the expression at `path` for which an answer was computed. -/
def Journal.computedAt (j : Journal) (path : Path) : List Demand := Demand.among path j.computed

/-- What is computed for an expression was asked in one of its visits. -/
theorem Journal.visited_of_computed {j : Journal} {path : Path} {demand : Demand}
    (hd : demand ∈ j.computedAt path) : ∃ v ∈ j.visitsAt path, v.demand = demand := by
  obtain ⟨v, hv, -, hdemand⟩ := Journal.mem_computed.mp (Demand.mem_among.mp hd)
  exact ⟨v, hv, hdemand⟩

/-- What is remembered of an expression was asked in one of its visits. -/
theorem State.Orderly.visited_of_remembered {s : State} (h : s.Orderly) {path : Path}
    {demand : Demand} (hd : demand ∈ s.memo.demandsAt path) :
    ∃ v ∈ s.visitsAt path, v.demand = demand := by
  obtain ⟨reading, hg⟩ := Memo.exists_get?_of_mem (Demand.mem_among.mp hd)
  exact Journal.visited_of_computed (Demand.mem_among.mpr (h.filed path demand reading hg))

namespace Walker

variable {w : Walker} {rules : Rules} {body : Body}

/-- Only expressions of the body are visited. -/
theorem walkBody_stands (hw : w.memoizes = true) (hset : w.setting = ⟨rules, body.method⟩)
    {path : Path}
    (hv : (Ending.state (w.walkBody body.stmts w.initial)).visitsAt path ≠ []) :
    ∃ e block, body.Stands rules path e block := by
  have ht := walkBody_traced hw body.stmts
  have hpart : ∃ p, .part p ∈ Stop.body body.stmts ∧ [] ++ p.route <+: path := by
    by_contra hno
    rw [ht.visits path fun p hp hpre => hno ⟨p, hp, hpre⟩] at hv
    simp [State.visitsAt, Journal.visitsAt, w.initial_untouched.2] at hv
  obtain ⟨p, hp, hpre⟩ := hpart
  obtain ⟨inner, e, own, hpath, hs⟩ :=
    (ht.bounded p hp).stands hpre hv (p.block Demand.methodBody.block)
  exact ⟨e, own, p, hp, inner, hpath, hset ▸ hs⟩

/-- The demands that an expression of the body meets are regular. -/
theorem walkBody_regular (hw : w.memoizes = true) (hset : w.setting = ⟨rules, body.method⟩)
    {path : Path} {e : Expr} {block : Scope} (h : body.Stands rules path e block) :
    ∃ asked, Demand.Regular block asked ∧
      ∀ v ∈ (Ending.state (w.walkBody body.stmts w.initial)).visitsAt path, asked v.demand := by
  obtain ⟨p, hp, inner, rfl, hs⟩ := h
  have hroot : Demand.Regular Demand.methodBody.block (Eq .methodBody) :=
    ⟨fun _ h => h ▸ rfl, .inl ⟨.methodBody, fun _ h => h.symm⟩⟩
  have hcalm := Stop.body_calm body.stmts p hp
  exact ((walkBody_traced hw body.stmts).bounded p hp).regular (Part.AskedOf.regular hcalm hroot)
    (hset ▸ hs)

section Asked

variable {path : Path} {demands : List Demand}
  (hd : ∀ demand ∈ demands,
    ∃ v ∈ (Ending.state (w.walkBody body.stmts w.initial)).visitsAt path, v.demand = demand)

include hd

/-- An expression is asked one thing, or nothing that requires more than its block. -/
theorem walkBody_single_or_within (hw : w.memoizes = true)
    (hset : w.setting = ⟨rules, body.method⟩) {e : Expr} {block : Scope}
    (hs : body.Stands rules path e block) :
    (∃ only, ∀ demand ∈ demands, demand = only) ∨
      ∀ demand ∈ demands, demand = .within .ref block ∨ demand = .within .value block := by
  obtain ⟨asked, hr, hasked⟩ := walkBody_regular hw hset hs
  have hall (demand : Demand) (hm : demand ∈ demands) : asked demand := by
    obtain ⟨v, hv, rfl⟩ := hd demand hm
    exact hasked v hv
  rcases hr.2 with ⟨only, honly⟩ | hblock
  · exact .inl ⟨only, fun demand hm => honly demand (hall demand hm)⟩
  · refine .inr fun demand hm => ?_
    exact Demand.eq_within (hr.1 demand (hall demand hm)) (hblock demand (hall demand hm))

/-- An expression is asked at most two things. -/
theorem walkBody_length_le_two (hw : w.memoizes = true) (hset : w.setting = ⟨rules, body.method⟩)
    (hn : demands.Nodup) : demands.length ≤ 2 := by
  cases demands with
  | nil => exact Nat.zero_le 2
  | cons demand rest =>
    obtain ⟨v, hv, -⟩ := hd demand List.mem_cons_self
    obtain ⟨e, block, hs⟩ := walkBody_stands hw hset (List.ne_nil_of_mem hv)
    exact Demand.length_le_two hn (walkBody_single_or_within hd hw hset hs)

end Asked

/-- The walk of a body goes through the state that it ends in. -/
theorem passesBody_end (w : Walker) (body : List Stmt) :
    w.PassesBody body (Ending.state (w.walkBody body w.initial)) := by
  refine Plan.passes_end (fun route node demand inner s => ?_) _ _ w.initial
  cases w.limit with
  | zero => exact .inr rfl
  | succ limit => exact .inr (.inl rfl)

/-- The memory at any point is the older part of the one at the end. -/
theorem PassesBody.memo_suffix {stmts : List Stmt} {s : State} (h : w.PassesBody stmts s) :
    s.memo.entries <:+ (Ending.state (w.walkBody stmts w.initial)).memo.entries :=
  w.passesBody_before State.persistent_memo (fun _ _ _ _ => List.suffix_cons _ _) h

/-- Whatever is remembered at some point was asked in a visit. -/
theorem PassesBody.visited (hw : w.memoizes = true) {stmts : List Stmt} {s : State}
    (h : w.PassesBody stmts s) {path : Path} {demand : Demand}
    (hd : demand ∈ s.memo.demandsAt path) :
    ∃ v ∈ (Ending.state (w.walkBody stmts w.initial)).visitsAt path, v.demand = demand := by
  refine (walkBody_traced hw stmts).orderly.visited_of_remembered (Demand.mem_among.mpr ?_)
  exact (h.memo_suffix.map (·.1)).subset (Demand.mem_among.mp hd)

end Walker

/-- Every expression is walked at most twice and reported on at most once. Of the visits of an
expression only the first reports. No answer to a demand is computed twice, and an expression is
walked for at most two demands. At every point of the analysis, nothing is remembered twice, and an
expression is remembered for a single demand or for none but those two that require nothing beyond
its block. -/
theorem analyze_walks_at_most_twice (body : Body) (options : Options) :
    let w : Walker := { setting := ⟨options.rules, body.method⟩, limit := options.maxDepth }
    let journal := (analyze body options).journal
    (∀ path, Visit.OnlyFirstReports (journal.visitsAt path)) ∧
      (∀ path, journal.visitsAt path ≠ [] → ∃ e block, body.Stands options.rules path e block) ∧
      journal.computed.Nodup ∧
      (∀ path, (journal.computedAt path).length ≤ 2) ∧
      ∀ s, w.PassesBody body.stmts s →
        (s.memo.entries.map (·.1)).Nodup ∧
        (∀ path e block, body.Stands options.rules path e block →
          (∃ only, ∀ demand ∈ s.memo.demandsAt path, demand = only) ∨
            ∀ demand ∈ s.memo.demandsAt path,
              demand = .within .ref block ∨ demand = .within .value block) ∧
        ∀ path, (s.memo.demandsAt path).length ≤ 2 := by
  intro w journal
  have horderly := (Walker.walkBody_traced (w := w) rfl body.stmts).orderly
  have hvisits := w.visits_analyze body.stmts
  have hat (path : Path) : journal.visitsAt path =
      (Ending.state (w.walkBody body.stmts w.initial)).visitsAt path := by
    rw [State.visitsAt, Journal.visitsAt, Journal.visitsAt, ← hvisits]
    rfl
  have hcomputed : journal.computed.Nodup := by
    have h := horderly.computed
    rw [Journal.computed, ← hvisits] at h
    exact h
  refine ⟨fun path => ?_, fun path hv => ?_, hcomputed, fun path => ?_, fun s hs => ?_⟩
  · rw [hat]
    exact horderly.reports path
  · rw [hat] at hv
    exact Walker.walkBody_stands rfl rfl hv
  · have hasked (demand : Demand) (hd : demand ∈ journal.computedAt path) :
        ∃ v ∈ (Ending.state (w.walkBody body.stmts w.initial)).visitsAt path,
          v.demand = demand := by
      rw [← hat]
      exact Journal.visited_of_computed hd
    exact Walker.walkBody_length_le_two hasked rfl rfl (Demand.nodup_among hcomputed path)
  · have hdistinct := (hs.memo_suffix.map (·.1)).sublist.nodup horderly.distinct
    have hasked (path : Path) (demand : Demand) (hd : demand ∈ s.memo.demandsAt path) :=
      hs.visited rfl hd
    refine ⟨hdistinct, fun path e block hst => ?_, fun path => ?_⟩
    · exact Walker.walkBody_single_or_within (hasked path) rfl rfl hst
    · exact Walker.walkBody_length_le_two (hasked path) rfl rfl
        (Demand.nodup_among hdistinct path)

/-- The bound is reached: an argument that is passed by reference is asked for its location, and
then quietly for its value. -/
theorem analyze_walks_at_most_twice_argument :
    let x : Local := { id := 0, name := "x", ty := .int, span := default }
    let g : Method :=
      { name := "g", returnTy := .void, span := default,
        params := [{ name := "p", ty := .int, passing := .byRef, span := default }] }
    let body : Body :=
      ⟨{ name := "f", returnTy := .void, span := default },
        [.declare ⟨x, some ⟨.literal, .int, default⟩⟩,
          .eval ⟨.call none g [⟨⟨.localVar x, .int, default⟩, .byRef⟩], .void, default⟩]⟩
    let options : Options := {}
    let w : Walker := { setting := ⟨options.rules, body.method⟩, limit := options.maxDepth }
    let s := Ending.state (w.walkBody body.stmts w.initial)
    let path : Path := [.stmt 1, .operand, .argument 0]
    w.PassesBody body.stmts s ∧
      ((analyze body options).journal.visitsAt path).map (·.quiet) = [false, true] ∧
      (analyze body options).journal.computedAt path =
        [.within .ref .currentMethod, .within .value .currentMethod] ∧
      s.memo.demandsAt path = [.within .value .currentMethod, .within .ref .currentMethod] ∧
      (s.memo.demandsAt path).length ≤ 2 := by
  intro x g body options w s path
  have hpasses := w.passesBody_end body.stmts
  obtain ⟨-, -, -, -, hpoints⟩ := analyze_walks_at_most_twice body options
  exact ⟨hpasses, by decide, by decide, by decide, (hpoints s hpasses).2.2 path⟩

end RefLifetime
