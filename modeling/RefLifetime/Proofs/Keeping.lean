import RefLifetime.Proofs.Contract
import RefLifetime.Proofs.Findings

/-!
# What a walk keeps

The parts that a rule has still to call at are apart from those that it has called at, so nothing is
remembered of them when their turn comes (`State.Ahead`). A `Discipline` says which demands are made
on which nodes, which scopes and lifetimes come about and what is entered in the journal. If rules
keep to it one by one, every visit does (`Walker.Upholds.visit`), and so does a whole analysis.
-/

namespace RefLifetime

/-- Between the parts that were `seen` and the stops still to do, nothing is remembered of what is
ahead. -/
structure State.Ahead (path : Path) (seen : List Answer) (todo : List Stop) (s : State) :
    Prop where
  apart : todo.Pairwise Stop.Apart
  behind : ∀ x ∈ seen, ∀ p, .part p ∈ todo → x.part.route.Apart p.route
  fresh : ∀ p, .part p ∈ todo → s.Fresh (path ++ p.route)

namespace State.Ahead

variable {path : Path} {seen : List Answer} {todo : List Stop} {s s' : State}

/-- Where nothing is remembered of the whole, nothing is of its parts. -/
theorem start (hap : todo.Pairwise Stop.Apart) (hf : s.Fresh path) : s.Ahead path [] todo := by
  refine ⟨hap, fun _ hx => (by cases hx), fun p _ q demand hq => ?_⟩
  exact hf q demand ((List.prefix_append path p.route).trans hq)

/-- Nothing is remembered of the part that comes next. -/
theorem head {p : Part} (h : s.Ahead path seen (.part p :: todo)) : s.Fresh (path ++ p.route) :=
  h.fresh p List.mem_cons_self

/-- After the visit of the next part. -/
theorem first {x : Answer} (h : s.Ahead path seen (.part x.part :: todo))
    (hs : s.SameOutside (path ++ x.part.route) s') : s'.Ahead path (x :: seen) todo := by
  obtain ⟨hx, hap⟩ := List.pairwise_cons.mp h.apart
  refine ⟨hap, ?_, fun p hp => ?_⟩
  · refine List.forall_mem_cons.mpr ⟨fun p hp => hx _ hp, fun y hy p hp => ?_⟩
    exact h.behind y hy p (List.mem_cons_of_mem _ hp)
  · refine (h.fresh p (List.mem_cons_of_mem _ hp)).of_sameOutside hs ?_
    exact (Path.apart_append_left path _ _).mpr (hx _ hp)

/-- After another visit of a part that was seen. -/
theorem again {x : Answer} (h : s.Ahead path seen todo) (hx : x ∈ seen)
    (hs : s.SameOutside (path ++ x.part.route) s') : s'.Ahead path seen todo := by
  refine ⟨h.apart, h.behind, fun p hp => (h.fresh p hp).of_sameOutside hs ?_⟩
  exact (Path.apart_append_left path _ _).mpr (h.behind x hx p hp)

/-- Passing a site leaves the same parts ahead. -/
theorem site {id : Nat} (h : s.Ahead path seen (.site id :: todo)) : s.Ahead path seen todo :=
  ⟨(List.pairwise_cons.mp h.apart).2, fun x hx p hp => h.behind x hx p (List.mem_cons_of_mem _ hp),
    fun p hp => h.fresh p (List.mem_cons_of_mem _ hp)⟩

/-- What is ahead depends on memory only. -/
theorem of_memo (h : s.Ahead path seen todo) (hm : s'.memo = s.memo) : s'.Ahead path seen todo :=
  ⟨h.apart, h.behind, fun p hp => (h.fresh p hp).of_memo hm⟩

end State.Ahead

/-! ### Parts that a rule asks for -/

/-- The contract that also says what is asked of which part, given the stops of the node and the
demand on it. -/
def Contract.asking (c : Contract) (stops : List Stop) (whole : Demand) : Contract :=
  { c with
    asks := fun route node demand inner => c.asks route node demand inner ∧
      ∃ p, .part p ∈ stops ∧ p.route = route ∧ p.node = node ∧ ∃ seen, p.Asks whole seen demand }

/-- A plan that tours its stops asks for nothing else, and in no other way. -/
theorem Plan.Tours.asking {α : Type} {c : Contract} {stops : List Stop} {whole : Demand}
    {hazard : Prop} {Q R : α → Prop} {seen : List Answer} {todo : List Stop} {p : Plan α}
    (h : Tours whole hazard Q seen todo p) (hc : p.Honours c R) (ht : todo ⊆ stops)
    (hs : ∀ x ∈ seen, .part x.part ∈ stops) : p.Honours (c.asking stops whole) R := by
  induction h with
  | done h => exact hc
  | fail hz => exact hc
  | @first seen todo part demand inner next hq ha _ ih =>
    obtain ⟨hp, ht⟩ := List.cons_subset.mp ht
    refine ⟨⟨hc.1, part, hp, rfl, rfl, seen, ha⟩, fun scope hscope => ?_⟩
    exact ih scope (hc.2 scope hscope) ht (List.forall_mem_cons.mpr ⟨hp, hs⟩)
  | @again seen todo part demand inner next hq hx hf hd _ ih =>
    obtain ⟨x, hx, rfl⟩ := hx
    have ha : x.part.Asks whole seen demand := by
      rw [Part.Asks, hf.1, hd]
      exact ⟨rfl, rfl⟩
    refine ⟨⟨hc.1, x.part, hs x hx, rfl, rfl, seen, ha⟩, fun scope hscope => ?_⟩
    exact ih scope (hc.2 scope hscope) ht hs
  | declare hz _ ih => exact ⟨hc.1, ih hc.2 (List.cons_subset.mp ht).2 hs⟩
  | @designate seen todo var lifetime next h _ ih =>
    have ht := (List.cons_subset.mp ht).2
    intro found hf
    cases found with
    | some found => exact ih found (hc (some found) hf) ht hs
    | none =>
      have hn := hc none hf
      rw [h] at hn ⊢
      exact ⟨hn.1, ih lifetime hn.2 ht hs⟩
  | @lookup seen todo id cause next hz h _ ih =>
    intro found hf
    cases found with
    | some found => exact ih found (hc (some found) hf) ht hs
    | none =>
      have hn := hc none hf
      rw [h] at hn ⊢
      exact hn
  | report _ ih => exact ih hc ht hs
  | hint _ ih => exact ih hc ht hs

/-- The contract that also says which parts are asked for, given the stops of the node and the block
that it stands in. -/
def Contract.touring (c : Contract) (stops : List Stop) (block : Scope) : Contract :=
  { c with
    asks := fun route node demand inner => c.asks route node demand inner ∧
      ∃ p, .part p ∈ stops ∧ p.route = route ∧ p.node = node ∧ demand.block = p.block block }

/-- A part is asked for in its block. -/
theorem Plan.Honours.touring {α : Type} {c : Contract} {stops : List Stop} {whole : Demand}
    {Q : α → Prop} {p : Plan α} (h : p.Honours (c.asking stops whole) Q) :
    p.Honours (c.touring stops whole.block) Q := by
  induction p with
  | done a => exact h
  | fail cause => exact h
  | visit route node demand inner next ih =>
    obtain ⟨⟨hc, part, hp, hroute, hnode, seen, ha⟩, hn⟩ := h
    exact ⟨⟨hc, part, hp, hroute, hnode, ha.1⟩, fun scope hs => ih scope (hn scope hs)⟩
  | lookup id next ih => exact fun found hf => ih found (h found hf)
  | declare var lifetime next ih => exact ⟨h.1, ih h.2⟩
  | report finding next ih => exact ih h
  | hint id next ih => exact ih h

/-- A plan that tours its stops asks for nothing else. -/
theorem Plan.Tours.honours {α : Type} {c : Contract} {stops : List Stop} {whole : Demand}
    {hazard : Prop} {Q R : α → Prop} {seen : List Answer} {todo : List Stop} {p : Plan α}
    (h : Tours whole hazard Q seen todo p) (hc : p.Honours c R) (ht : todo ⊆ stops)
    (hs : ∀ x ∈ seen, .part x.part ∈ stops) : p.Honours (c.touring stops whole.block) R :=
  (h.asking hc ht hs).touring

private theorem Scope.bodyDepth_le_ofDepth {depth : Nat} (h : bodyDepth ≤ depth) :
    bodyDepth ≤ (ofDepth depth).depth := by
  have h₀ : ¬ depth = 0 := by simp only [bodyDepth] at h; omega
  have h₁ : ¬ depth = 1 := by simp only [bodyDepth] at h; omega
  rw [ofDepth, if_neg h₀, if_neg h₁]
  split
  · exact Nat.le_refl _
  · split <;> simp only [Scope.depth, bodyDepth, maxDepth] <;> omega

/-- A block lies inside the method body. -/
theorem Scope.bodyDepth_le_enterBlock (scope : Scope) : bodyDepth ≤ scope.enterBlock.depth := by
  cases scope with
  | callingMethod | returnOnly => exact Nat.le_refl _
  | currentMethod => decide
  | block level =>
    apply bodyDepth_le_ofDepth
    simp only [Scope.depth, bodyDepth, maxDepth]
    omega
  | unused => decide

private theorem Part.bodyDepth_le_block (p : Part) {block : Scope}
    (h : Scope.bodyDepth ≤ block.depth) : Scope.bodyDepth ≤ (p.block block).depth := by
  unfold Part.block
  split
  · exact block.bodyDepth_le_enterBlock
  · exact h

/-- The parts of a node inside the method body are inside it too. -/
theorem Part.Asks.bodyDepth_le {p : Part} {whole demand : Demand} {seen : List Answer}
    (h : p.Asks whole seen demand) (hb : Scope.bodyDepth ≤ whole.block.depth) :
    Scope.bodyDepth ≤ demand.block.depth := by
  rw [h.1]
  exact p.bodyDepth_le_block hb

/-- What is asked for is a part, and it is asked for inside the method body. -/
theorem Contract.part_of_touring {c : Contract} {stops : List Stop} {block : Scope} {route : Path}
    {node : Node} {demand : Demand} {inner : Mood}
    (h : (c.touring stops block).asks route node demand inner)
    (hb : Scope.bodyDepth ≤ block.depth) :
    ∃ p, .part p ∈ stops ∧ p.route = route ∧ p.node = node ∧
      Scope.bodyDepth ≤ demand.block.depth := by
  obtain ⟨-, p, hp, hroute, hnode, hd⟩ := h
  refine ⟨p, hp, hroute, hnode, ?_⟩
  rw [hd]
  exact p.bodyDepth_le_block hb

/-- The statements of a body keep to the contract of a block. -/
theorem Rule.body_asking (S : Scope → Prop) (body : List Stmt) :
    (Rule.stmts [] body .methodBody).Honours
      (((Node.stmt (.block body)).contract S Demand.methodBody.block).asking (Stop.body body)
        .methodBody) fun _ => True :=
  (Rule.body_tours body).asking (Rule.stmts_honours [] body .methodBody rfl)
    (List.Subset.refl _) fun _ hx => by cases hx

/-- The statements of a body are walked within the contract of the body as a block, in one tour. -/
theorem Rule.body_honours (S : Scope → Prop) (body : List Stmt) :
    (Rule.stmts [] body .methodBody).Honours
      (((Node.stmt (.block body)).contract S Demand.methodBody.block).touring (Stop.body body)
        Demand.methodBody.block) fun _ => True :=
  (Rule.body_asking S body).touring

/-- The parts of a body are its statements, and they are asked for as the body is. -/
theorem Stop.asks_body {body : List Stmt} {p : Part} (hp : .part p ∈ Stop.body body)
    {whole asked : Demand} {seen : List Answer} (ha : p.Asks whole seen asked) :
    (∃ st ∈ body, p.node = .stmt st) ∧ asked = whole := by
  have hall : Stop.All (fun p => (∃ st ∈ body, p.node = .stmt st) ∧ p.asking = .once id)
      (Stop.body body) :=
    Stop.all_members (fun i st hst => Stop.all_part ⟨⟨st, hst, rfl⟩, rfl⟩) 0
  obtain ⟨hn, hk⟩ := hall p hp
  have hasked := ha.2
  rw [hk] at hasked
  exact ⟨hn, hasked⟩

/-! ### What holds of everything on record -/

/-- All scopes on record and in memory satisfy `S`, and all lifetimes on record satisfy `T`. -/
structure State.Holds (S : Scope → Prop) (T : Nat → Lifetime → Prop) (s : State) : Prop where
  recorded : ∀ id lifetime, s.lifetimes.get? id = some lifetime →
    (S lifetime.ref ∧ S lifetime.value) ∧ T id lifetime
  remembered : ∀ path demand reading, s.memo.get? path demand = some reading → S reading.scope

namespace State.Holds

variable {S : Scope → Prop} {T : Nat → Lifetime → Prop} {s : State}

/-- An entry in the journal changes no record. -/
theorem note (h : s.Holds S T) (event : Event) : (s.note event).Holds S T :=
  ⟨h.recorded, h.remembered⟩

private theorem declare (h : s.Holds S T) {var : Local} {lifetime : Lifetime}
    (hl : (S lifetime.ref ∧ S lifetime.value) ∧ T var.id lifetime) :
    (s.declare var lifetime).Holds S T := by
  refine ⟨fun id found hf => ?_, h.remembered⟩
  simp only [State.declare, Lifetimes.get?_insert] at hf
  split at hf
  · next hi =>
    cases hf
    rw [hi]
    exact hl
  · exact h.recorded id found hf

private theorem remember (h : s.Holds S T) (path : Path) (demand : Demand) {reading : Reading}
    (hr : S reading.scope) : (s.remember path demand reading).Holds S T := by
  refine ⟨h.recorded, fun q asked found hf => ?_⟩
  simp only [State.remember, Memo.get?_insert] at hf
  split at hf
  · cases hf
    exact hr
  · exact h.remembered q asked found hf

end State.Holds

/-- When the walk of a body begins, there is nothing on record. -/
theorem Walker.initial_holds (w : Walker) (S : Scope → Prop) (T : Nat → Lifetime → Prop) :
    w.initial.Holds S T := by
  obtain ⟨hl, hm⟩ := w.initial_empty
  constructor
  · intro id lifetime h
    rw [hl] at h
    cases h
  · intro path demand reading h
    rw [hm] at h
    cases h

private theorem Journal.reported_of_mem {j : Journal} {d : Diagnostic}
    (h : d ∈ j.diagnostics.toList) : .reported d ∈ j.events.toList := by
  obtain ⟨event, he, hd⟩ := List.mem_filterMap.mp h
  unfold Event.diagnostic? at hd
  split at hd
  · cases hd
    exact he
  · cases hd

/-! ### Disciplines -/

/-- What a walk is to keep to. -/
structure Discipline where
  /-- The node may be visited with this demand. -/
  asks : Node → Demand → Prop
  /-- Such scopes are answered, recorded and remembered. -/
  scopes : Scope → Prop
  /-- This may be recorded for the local of this number. -/
  lifetimes : Nat → Lifetime → Prop
  /-- This may be entered in the journal. -/
  events : Event → Prop

/-- What is on record, in memory and in the journal is as the discipline has it. -/
structure State.Upholds (d : Discipline) (s : State) : Prop where
  holds : s.Holds d.scopes d.lifetimes
  events : ∀ event ∈ s.journal.events.toList, d.events event

namespace State.Upholds

variable {d : Discipline} {s : State}

private theorem note (h : s.Upholds d) {event : Event} (he : d.events event) :
    (s.note event).Upholds d := by
  refine ⟨h.holds.note event, fun other ho => ?_⟩
  simp only [State.note, Journal.push, Array.toList_push] at ho
  rcases List.mem_append.mp ho with ho | ho
  · exact h.events other ho
  · rw [List.mem_singleton.mp ho]
    exact he

private theorem tell (h : s.Upholds d) (mood : Mood) {event : Event} (he : d.events event) :
    (s.tell mood event).Upholds d := by
  unfold State.tell
  split
  · exact h
  · exact h.note he

private theorem declare (h : s.Upholds d) {var : Local} {lifetime : Lifetime}
    (hl : (d.scopes lifetime.ref ∧ d.scopes lifetime.value) ∧ d.lifetimes var.id lifetime)
    (he : d.events (.declared var.name lifetime)) : (s.declare var lifetime).Upholds d :=
  ⟨h.holds.declare hl, (h.note he).events⟩

private theorem remember (h : s.Upholds d) (path : Path) (demand : Demand) {reading : Reading}
    (hr : d.scopes reading.scope) : (s.remember path demand reading).Upholds d :=
  ⟨h.holds.remember path demand hr, h.events⟩

end State.Upholds

/-- An expression is answered as the discipline has it, and so is the state in any case. -/
abbrev Ending.Upholds (d : Discipline) (node : Node) : Ending Scope → Prop :=
  Ending.Meets (fun scope s => ((∃ e, node = .expr e) → d.scopes scope) ∧ s.Upholds d)
    (State.Upholds d)

/-- Under the walker's setting, each rule keeps to the discipline if it is asked as the discipline
allows, and so does what is entered before and after the walk. Entries that the discipline says
nothing about need no proof. -/
structure Walker.Upholds (w : Walker) (d : Discipline) : Prop where
  closed : ∀ node demand, d.asks node demand → Scope.Closed d.scopes demand.block
  inner : ∀ node demand, d.asks node demand → node.opensBlock = true →
    Scope.Closed d.scopes demand.enterBlock.block
  allows : ∀ node demand, d.asks node demand → w.setting.Allows d.scopes node
  parts : ∀ node demand, d.asks node demand → ∀ p, .part p ∈ node.stops w.setting →
    ∀ seen asked, p.Asks demand seen asked → d.asks p.node asked
  visited : ∀ e demand, d.asks (.expr e) demand → ∀ path quiet recalled,
    d.events (.visited path demand quiet recalled) := by intros; exact trivial
  declared : ∀ node demand, d.asks node demand → ∀ var lifetime,
    (node.contract d.scopes demand.block).declares var lifetime →
      d.lifetimes var.id lifetime ∧ d.events (.declared var.name lifetime) := by
    intros; exact ⟨trivial, trivial⟩
  reported : ∀ node demand, d.asks node demand → ∀ finding : Finding,
    finding.Arises d.scopes w.setting.rules demand → ∀ region,
      d.events (.reported (finding.inRegion region)) := by intros; exact trivial
  hinted : ∀ id, d.events (.hinted id) := by intros; exact trivial
  started : d.events (.started w.setting.method.name w.setting.rules) := by exact trivial
  warned : ∀ warning ∈ w.setting.method.captureWarnings w.setting.rules,
    d.events (.reported warning) := by intros; exact trivial
  finished : ∀ diagnostics hints,
    d.events (.finished w.setting.method.name diagnostics hints) := by intros; exact trivial

namespace Walker.Upholds

variable {w : Walker} {d : Discipline}

/-- A run keeps to the discipline if its visits and its single steps do. -/
theorem run (h : w.Upholds d) {α : Type} {node : Node} {stops : List Stop} {whole : Demand}
    {visit : Visitor}
    (hv : ∀ p, .part p ∈ stops → ∀ seen asked, p.Asks whole seen asked → ∀ mood s,
      s.Upholds d → Ending.Upholds d p.node (visit p.route p.node asked mood s))
    (hdeclared : ∀ var lifetime, (node.contract d.scopes whole.block).declares var lifetime →
      d.lifetimes var.id lifetime ∧ d.events (.declared var.name lifetime))
    {F : Finding → Prop}
    (hreported : ∀ finding, F finding → ∀ region, d.events (.reported (finding.inRegion region)))
    (mood : Mood) {plan : Plan α} {Q R : α → Prop}
    (hc : plan.Honours ((node.contract d.scopes whole.block).asking stops whole) Q)
    (hr : plan.Reports d.scopes F R) {s : State} (hs : s.Upholds d) :
    Ending.Meets (fun a s' => Q a ∧ s'.Upholds d) (State.Upholds d) (plan.run visit mood s) := by
  induction plan generalizing s with
  | done a => exact .ok ⟨hc, hs⟩
  | fail cause => exact .error hs
  | visit route part demand inner next ih =>
    obtain ⟨⟨-, p, hp, rfl, rfl, seen, ha⟩, hn⟩ := hc
    rw [Plan.run_visit]
    refine (hv p hp seen demand ha (inner.within mood) s hs).andThen ?_ fun _ h => h
    exact fun scope s' ha => ih scope (hn scope ha.1) (hr scope ha.1) ha.2
  | lookup id next ih =>
    rw [Plan.run_lookup]
    refine ih _ (hc _ fun lifetime hl => ?_) (hr _) hs
    exact (hs.holds.recorded id lifetime hl).1
  | declare var lifetime next ih =>
    obtain ⟨hd, hn⟩ := hc
    obtain ⟨hl, he⟩ := hdeclared var lifetime hd
    exact ih hn hr (hs.declare ⟨hd.2.1, hl⟩ he)
  | report finding next ih => exact ih hc hr.2 (hs.tell mood (hreported finding hr.1 _))
  | hint id next ih => exact ih hc hr (hs.tell mood (h.hinted id))

/-- A visit keeps to the discipline if the computation of its answer does. -/
theorem visit_of_compute (h : w.Upholds d) {levels : Nat} {mood : Mood} {path : Path}
    {node : Node} {demand : Demand} (ha : d.asks node demand)
    (hc : ∀ s, State.Upholds d s →
      Ending.Upholds d node (w.compute levels mood path node demand s))
    {s : State} (hs : s.Upholds d) :
    Ending.Upholds d node (w.visit levels mood path node demand s) := by
  cases node with
  | stmt st =>
    rw [visit_stmt]
    exact hc s hs
  | expr e =>
    have hvisited := h.visited e demand ha path mood.quiet
    refine w.visit_meets ?_ ?_ fun hn scope t ht => ⟨ht.1, ht.2.remember path demand (ht.1 hn)⟩
    · intro scope hm
      obtain ⟨-, reading, hr, rfl, -⟩ := w.remembered_eq_some hm
      exact ⟨fun _ => hs.holds.remembered path demand reading hr, hs.note (hvisited true)⟩
    · rintro t (rfl | rfl)
      · exact hc _ hs
      · exact hc _ (hs.note (hvisited false))

/-- A visit that the discipline allows keeps to it. -/
theorem visit (h : w.Upholds d) (levels : Nat) (mood : Mood) (path : Path) {node : Node}
    {demand : Demand} (ha : d.asks node demand) {s : State} (hs : s.Upholds d) :
    Ending.Upholds d node (w.visit levels mood path node demand s) := by
  induction levels generalizing mood path node demand s with
  | zero => exact h.visit_of_compute ha (fun s hs => .error hs) hs
  | succ levels ih =>
    refine h.visit_of_compute ha (fun s hs => ?_) hs
    rw [compute_succ]
    have hrule := (Rule.node_tours w.setting node demand).asking
      (Rule.node_honours (h.closed node demand ha) (h.inner node demand ha)
        (h.allows node demand ha)) (List.Subset.refl _) fun _ hx => by cases hx
    refine h.run ?_ (h.declared node demand ha) (h.reported node demand ha) mood hrule
      (Rule.node_reports w.setting node demand) hs
    intro p hp seen asked hasked inner t ht
    exact ih inner (path ++ p.route) (h.parts node demand ha p hp seen asked hasked) ht

/-- The walk of a body keeps to the discipline if its statements may be visited. -/
theorem walkBody (h : w.Upholds d) {body : List Stmt}
    (hb : ∀ st ∈ body, d.asks (.stmt st) .methodBody) {s : State} (hs : s.Upholds d) :
    State.Upholds d (Ending.state (w.walkBody body s)) := by
  have hrun : Ending.Meets (fun _ s' => True ∧ s'.Upholds d) (State.Upholds d)
      (w.walkBody body s) := by
    refine h.run (F := fun _ => False) ?_ ?_ (fun _ hf => hf.elim) _
      (Rule.body_asking d.scopes body) (Rule.stmts_reports [] body _ .checked) hs
    · intro p hp seen asked ha inner t ht
      obtain ⟨⟨st, hst, hn⟩, rfl⟩ := Stop.asks_body hp ha
      refine h.visit w.limit inner p.route ?_ ht
      rw [hn]
      exact hb st hst
    -- A body declares nothing by itself.
    · rintro var lifetime ⟨hv, -⟩
      cases hv
  exact hrun.state (fun _ _ h => h.2) fun _ h => h

/-- When the walk of a body begins, the discipline has been kept to. -/
theorem initial (h : w.Upholds d) : w.initial.Upholds d := by
  refine ⟨w.initial_holds _ _, ?_⟩
  refine w.initial_induction (P := fun s => ∀ event ∈ s.journal.events.toList, d.events event) ?_ ?_
  · intro event he
    rw [List.mem_singleton.mp he]
    exact h.started
  · intro warning hw s hs event he
    simp only [State.note, Journal.push, Array.toList_push] at he
    rcases List.mem_append.mp he with he | he
    · exact hs event he
    · rw [List.mem_singleton.mp he]
      exact h.warned warning hw

/-- An analysis keeps to the discipline: everything in its journal is as the discipline has it, also
after a failure, and so is what is on record at the end. -/
theorem analyze (h : w.Upholds d) {body : List Stmt}
    (hb : ∀ st ∈ body, d.asks (.stmt st) .methodBody) :
    (∀ event ∈ (w.analyze body).journal.events.toList, d.events event) ∧
      ∀ outcome, (w.analyze body).result = .ok outcome → ∀ id lifetime,
        outcome.lifetimes.get? id = some lifetime →
          (d.scopes lifetime.ref ∧ d.scopes lifetime.value) ∧ d.lifetimes id lifetime := by
  have hwalk := h.walkBody hb h.initial
  unfold Walker.analyze EStateM.run
  cases hw : w.walkBody body w.initial with
  | ok a s =>
    rw [hw] at hwalk
    refine ⟨(State.Upholds.note hwalk (h.finished _ _)).events, fun outcome ho => ?_⟩
    cases ho
    exact hwalk.holds.recorded
  | error failure s =>
    rw [hw] at hwalk
    refine ⟨hwalk.events, fun outcome ho => ?_⟩
    cases ho

/-- The diagnostics of an analysis are as the discipline has it. -/
theorem diagnostics (h : w.Upholds d) {body : List Stmt}
    (hb : ∀ st ∈ body, d.asks (.stmt st) .methodBody) :
    ∀ found ∈ (w.analyze body).diagnostics.toList, d.events (.reported found) :=
  fun _ hf => (h.analyze hb).1 _ (Journal.reported_of_mem hf)

end Walker.Upholds

/-! ### Disciplines of nodes -/

/-- Under the walker's setting, rules for nodes that satisfy `P` answer with scopes that satisfy
`S` and record lifetimes that satisfy `T`, wherever they stand in the method body. -/
structure Walker.Keeps (w : Walker) (P : Node → Prop) (S : Scope → Prop)
    (T : Nat → Lifetime → Prop) : Prop where
  closed : ∀ block, Scope.bodyDepth ≤ block.depth → Scope.Closed S block
  allows : ∀ node, P node → w.setting.Allows S node
  declares : ∀ node block var lifetime, P node → Scope.bodyDepth ≤ block.depth →
    (node.contract S block).declares var lifetime → T var.id lifetime

namespace Walker.Keeps

variable {w : Walker} {P : Node → Prop} {S : Scope → Prop} {T : Nat → Lifetime → Prop}

/-- The rule for such a node keeps to its contract and asks for its own parts only. -/
theorem node_honours (h : w.Keeps P S T) {node : Node} (hn : P node) {demand : Demand}
    (hb : Scope.bodyDepth ≤ demand.block.depth) :
    (Rule.node w.setting node demand).Honours
      ((node.contract S demand.block).touring (node.stops w.setting) demand.block)
      fun scope => (∃ e, node = .expr e) → S scope :=
  (Rule.node_tours w.setting node demand).honours
    (Rule.node_honours (h.closed demand.block hb)
      (fun _ => h.closed _ demand.block.bodyDepth_le_enterBlock) (h.allows node hn))
    (List.Subset.refl _) fun _ hx => by cases hx

/-- Visits of parts that keep `Holds` meet the contract of the whole. -/
theorem met (h : w.Keeps P S T) {node : Node} (hn : P node) {block : Scope}
    (hb : Scope.bodyDepth ≤ block.depth) {stops : List Stop} {visit : Visitor}
    (hv : ∀ p, .part p ∈ stops → ∀ demand mood s, Scope.bodyDepth ≤ demand.block.depth →
      s.Holds S T → Ending.Meets
        (fun scope s' => ((∃ e, p.node = .expr e) → S scope) ∧ s'.Holds S T) (State.Holds S T)
        (visit p.route p.node demand mood s)) (mood : Mood) :
    ((node.contract S block).touring stops block).Met visit mood (State.Holds S T) where
  visit := by
    intro route part demand inner s ha hs
    obtain ⟨p, hp, rfl, rfl, hd⟩ := Contract.part_of_touring ha hb
    exact hv p hp demand _ s hd hs
  finds s hs id lifetime hf := (hs.recorded id lifetime hf).1
  declare s var lifetime hs hd := hs.declare ⟨hd.2.1, h.declares node block var lifetime hn hb hd⟩
  note s event hs := hs.note event

/-- What is kept wherever nodes satisfy `P` is a discipline. -/
theorem upholds (h : w.Keeps P S T) :
    w.Upholds {
      asks := fun node demand => (∃ here, node.Throughout P here) ∧
        Scope.bodyDepth ≤ demand.block.depth
      scopes := S
      lifetimes := T
      events := fun _ => True } where
  closed _ demand ha := h.closed demand.block ha.2
  inner _ demand _ _ := h.closed _ demand.block.bodyDepth_le_enterBlock
  allows node _ ha := by
    obtain ⟨⟨here, hn⟩, -⟩ := ha
    exact h.allows node hn.own
  parts _ _ ha p hp _ _ hasked := by
    obtain ⟨⟨here, hn⟩, hb⟩ := ha
    exact ⟨⟨_, hn.part w.setting hp⟩, hasked.bodyDepth_le hb⟩
  declared node demand ha var lifetime hd := by
    obtain ⟨⟨here, hn⟩, hb⟩ := ha
    exact ⟨h.declares node demand.block var lifetime hn.own hb hd, trivial⟩

/-- A visit keeps to what holds of everything on record, and answers accordingly. -/
theorem visit (h : w.Keeps P S T) (levels : Nat) (mood : Mood) (path : Path) {here : Standing}
    {node : Node} (hn : node.Throughout P here) {demand : Demand}
    (hb : Scope.bodyDepth ≤ demand.block.depth) {s : State} (hs : s.Holds S T) :
    Ending.Meets (fun scope s' => ((∃ e, node = .expr e) → S scope) ∧ s'.Holds S T)
      (State.Holds S T) (w.visit levels mood path node demand s) := by
  have hv := h.upholds.visit levels mood path ⟨⟨here, hn⟩, hb⟩ ⟨hs, fun _ _ => trivial⟩
  exact hv.imp (fun _ _ h => ⟨h.1, h.2.holds⟩) fun _ h => h.holds

/-- A walker's visits of parts meet the contract of the whole. -/
theorem met_visit (h : w.Keeps P S T) (levels : Nat) (path : Path) {node : Node} (hn : P node)
    {block : Scope} (hb : Scope.bodyDepth ≤ block.depth) {stops : List Stop}
    (hin : ∀ p, .part p ∈ stops → ∃ here, p.node.Throughout P here) (mood : Mood) :
    ((node.contract S block).touring stops block).Met
      (fun route part asked inner => w.visit levels inner (path ++ route) part asked) mood
      (State.Holds S T) := by
  refine h.met hn hb ?_ mood
  intro p hp demand inner s hd hs
  obtain ⟨here, hpart⟩ := hin p hp
  exact h.visit levels inner (path ++ p.route) hpart hd hs

end Walker.Keeps

end RefLifetime
