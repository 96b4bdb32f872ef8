import RefLifetime.Proofs.Keeping

/-!
# Dangling references

A method that returns by reference must not return a reference into its own frame. Wherever a return
statement stands, and whatever construct declared the local, an operand that denotes storage of a
local that is no reference itself is reported.

The walk calls at every landmark of a body it gets through (`Walker.Called.reaches`), each of them
for the first time and aloud, and from there the demand for a returnable reference is handed down to
the local.
-/

namespace RefLifetime

/-! ### A walk that ends well has called at every landmark -/

/-- The mood in which a node is walked for the first time. -/
def Standing.mood (here : Standing) : Mood := { region := here.region }

/-- The journal of a run that ends well continues the one it began with. -/
theorem Plan.run_grows {α : Type} {w : Walker} {levels : Nat} {path : Path} {mood : Mood}
    {p : Plan α} {s s' : State} {a : α}
    (hr : p.run (fun route part asked inner => w.visit levels inner (path ++ route) part asked)
      mood s = .ok a s') : s.Grows s' := by
  have hg := State.persistent_grows.run mood (fun route node demand inner t =>
    w.visit_grows levels inner (path ++ route) node demand t) p s
  rw [hr] at hg
  exact hg

/-- What is known after a visit that the contract allows. -/
theorem Contract.Met.after {c : Contract} {w : Walker} {levels : Nat} {path : Path} {mood : Mood}
    {Inv : State → Prop}
    (hm : c.Met (fun route part asked inner => w.visit levels inner (path ++ route) part asked)
      mood Inv)
    {route : Path} {node : Node} {demand : Demand} {inner : Mood} {s s' : State} {scope : Scope}
    (ha : c.asks route node demand inner) (hs : Inv s)
    (hv : w.visit levels (inner.within mood) (path ++ route) node demand s = .ok scope s') :
    (c.answers node scope ∧ Inv s') ∧ s.SameOutside (path ++ route) s' := by
  have hmeets := hm.visit route node demand inner s ha hs
  have hsame := w.visit_sameOutside levels (inner.within mood) (path ++ route) node demand s
  rw [hv] at hmeets hsame
  cases hmeets with
  | ok h => exact ⟨h, hsame⟩

/-- A run that ends well has visited every part on its tour, for the first time and aloud. -/
theorem Plan.Tours.run_visits {α : Type} {w : Walker} {levels : Nat} {path : Path} {c : Contract}
    {mood : Mood} {Inv : State → Prop}
    (hm : c.Met (fun route part asked inner => w.visit levels inner (path ++ route) part asked)
      mood Inv)
    {whole : Demand} {hazard : Prop} {Q R : α → Prop} {seen : List Answer} {todo : List Stop}
    {p : Plan α} (h : Tours whole hazard Q seen todo p) (hc : p.Honours c R) {s s' : State} {a : α}
    (ha : s.Ahead path seen todo) (hs : Inv s)
    (hr : p.run (fun route part asked inner => w.visit levels inner (path ++ route) part asked)
      mood s = .ok a s')
    {part : Part} (hp : .part part ∈ todo) :
    ∃ demand inner, (part.Opens inner ∧ c.asks part.route part.node demand inner ∧
      ∃ before, part.Asks whole before demand) ∧
      ∃ t scope t', Inv t ∧ t.Fresh (path ++ part.route) ∧
        w.visit levels (inner.within mood) (path ++ part.route) part.node demand t =
          .ok scope t' ∧ t'.Grows s' := by
  induction h generalizing s with
  | done h => cases hp
  | fail hz => cases hr
  | @first seen todo visited demand inner next hq hasks _ ih =>
    rw [Plan.run_visit] at hr
    cases hv : w.visit levels (inner.within mood) (path ++ visited.route) visited.node demand s with
    | error failure t =>
      rw [hv] at hr
      cases hr
    | ok scope t =>
      rw [hv] at hr
      obtain ⟨⟨hans, ht⟩, hsame⟩ := hm.after hc.1 hs hv
      rcases List.mem_cons.mp hp with heq | hp
      · cases heq
        exact ⟨demand, inner, ⟨hq, hc.1, seen, hasks⟩, s, scope, t, hs, ha.head, hv, run_grows hr⟩
      · exact ih scope (hc.2 scope hans) (ha.first (x := ⟨visited, demand, scope⟩) hsame) ht hr hp
  | @again seen todo visited demand inner next hq hx hf hd _ ih =>
    obtain ⟨x, hx, rfl⟩ := hx
    rw [Plan.run_visit] at hr
    cases hv : w.visit levels (inner.within mood) (path ++ x.part.route) x.part.node demand s with
    | error failure t =>
      rw [hv] at hr
      cases hr
    | ok scope t =>
      rw [hv] at hr
      obtain ⟨⟨hans, ht⟩, hsame⟩ := hm.after hc.1 hs hv
      exact ih scope (hc.2 scope hans) (ha.again hx hsame) ht hr hp
  | @declare seen todo var lifetime next hz _ ih =>
    have hp := (List.mem_cons.mp hp).resolve_left (by simp)
    have hd := hm.declare s var lifetime hs hc.1
    exact ih hc.2 (s := s.declare var lifetime) (ha.site.of_memo rfl) hd hr hp
  | @designate seen todo var lifetime next h _ ih =>
    have hp := (List.mem_cons.mp hp).resolve_left (by simp)
    rw [Plan.run_lookup] at hr
    cases hg : s.lifetimes.get? var.id with
    | none =>
      have hn := hc none (fun _ hf => by cases hf)
      rw [h] at hn
      rw [hg, h] at hr
      have hd := hm.declare s var lifetime hs hn.1
      exact ih lifetime hn.2 (s := s.declare var lifetime) (ha.site.of_memo rfl) hd hr hp
    | some found =>
      have hfound := hc (some found) fun l hl => hm.finds s hs var.id l (hg.trans hl)
      rw [hg] at hr
      exact ih found hfound ha.site hs hr hp
  | @lookup seen todo id cause next hz h _ ih =>
    rw [Plan.run_lookup] at hr
    cases hg : s.lifetimes.get? id with
    | none =>
      rw [hg, h] at hr
      cases hr
    | some found =>
      have hfound := hc (some found) fun l hl => hm.finds s hs id l (hg.trans hl)
      rw [hg] at hr
      exact ih found hfound ha hs hr hp
  | report _ ih => exact ih hc (ha.of_memo (s.memo_tell mood _)) (hm.tell hs _) hr hp
  | hint _ ih => exact ih hc (ha.of_memo (s.memo_tell mood _)) (hm.tell hs _) hr hp

/-- Only an unchecked block opens a region, and it has no expressions of its own. -/
theorem Node.opens_of_expr {node : Node} {setting : Setting} {p : Part}
    (hp : .part p ∈ node.stops setting) (he : ∃ e, p.node = .expr e) : node.opens = .checked := by
  cases node with
  | expr e => rfl
  | stmt s =>
    cases s with
    | uncheckedBlock body =>
      have hall : Stop.All (fun p => ∃ st, p.node = .stmt st) (Stop.block [] body) :=
        Stop.all_forEach (fun _ st => Stop.all_part ⟨st, rfl⟩) body 0
      obtain ⟨st, hst⟩ := hall p hp
      obtain ⟨e, he⟩ := he
      rw [he] at hst
      cases hst
    | _ => rfl

/-- A part that is visited for the first time is in the mood of its standing. -/
theorem Part.Opens.within {p : Part} {inner : Mood} (ho : p.Opens inner) {node : Node}
    (hr : inner.region = node.opens) (here : Standing) :
    inner.within here.mood = ((here.inside node).part p.route).mood := by
  simp only [Mood.within, Standing.mood, Standing.part, Standing.inside, ho.1, hr, Bool.or_self]

namespace Walker

variable {w : Walker} {P : Node → Prop} {S : Scope → Prop} {T : Nat → Lifetime → Prop}

/-- A visit of the node, aloud and the first one there, ended well, and what followed led to the
state `last`. -/
def Called (w : Walker) (S : Scope → Prop) (T : Nat → Lifetime → Prop) (levels : Nat) (node : Node)
    (here : Standing) (demand : Demand) (last : State) : Prop :=
  ∃ s scope s', s.Holds S T ∧ s.Fresh here.path ∧
    w.visit levels here.mood here.path node demand s = .ok scope s' ∧ s'.Grows last

/-- A first visit that ends well has computed its answer. -/
theorem visit_ok_computed {levels : Nat} {mood : Mood} {path : Path} {node : Node}
    {demand : Demand} {s s' : State} {scope : Scope} (hf : s.Fresh path)
    (hr : w.visit levels mood path node demand s = .ok scope s') :
    ∃ t t', t.lifetimes = s.lifetimes ∧ t.memo = s.memo ∧
      w.compute levels mood path node demand t = .ok scope t' ∧ t'.journal = s'.journal ∧
      t'.lifetimes = s'.lifetimes := by
  cases node with
  | stmt st =>
    rw [visit_stmt] at hr
    exact ⟨s, s', rfl, rfl, hr, rfl, rfl⟩
  | expr e =>
    rw [visit_computed w (w.remembered_fresh hf demand mood.quiet)] at hr
    cases hc : w.compute levels mood path (.expr e) demand
        (s.note (.visited path demand mood.quiet false)) with
    | error failure t =>
      rw [hc] at hr
      cases hr
    | ok found t =>
      rw [hc] at hr
      cases hr
      exact ⟨s.note (.visited path demand mood.quiet false), t, rfl, rfl, hc, rfl, rfl⟩

/-- The parts of a node were called at if its plan was carried out to the end. -/
theorem Keeps.run_calls {α : Type} (hk : w.Keeps P S T) (levels : Nat) (here : Standing)
    {node : Node} (hP : P node) {demand : Demand} (hb : Scope.bodyDepth ≤ demand.block.depth)
    {plan : Plan α} {Q R : α → Prop} {stops : List Stop} (ht : plan.Tours demand True Q [] stops)
    (hc : plan.Honours ((node.contract S demand.block).touring stops demand.block) R)
    (hapart : stops.Pairwise Stop.Apart)
    (hin : ∀ p, .part p ∈ stops → p.node.Throughout P ((here.inside node).part p.route))
    (hopens : ∀ p, .part p ∈ stops → (∃ e, p.node = .expr e) → node.opens = .checked)
    {s s' last : State} {a : α} (hs : s.Holds S T) (hf : s.Fresh here.path)
    (hr : plan.run (fun route part asked inner =>
      w.visit levels inner (here.path ++ route) part asked) here.mood s = .ok a s')
    (hl : s'.Grows last) {p : Part} (hp : .part p ∈ stops) :
    ∃ asked before, p.Asks demand before asked ∧
      w.Called S T levels p.node ((here.inside node).part p.route) asked last := by
  have hm := hk.met_visit levels here.path hP hb (fun p hp => ⟨_, hin p hp⟩) here.mood
  obtain ⟨asked, inner, ⟨ho, ha, before, hasks⟩, t, scope, t', ht, hf, hv, hg⟩ :=
    ht.run_visits hm hc (.start hapart hf) hs hr hp
  have hregion : inner.region = node.opens := by
    cases hn : p.node with
    | expr e => rw [ho.2 ⟨e, hn⟩, hopens p hp ⟨e, hn⟩]
    | stmt st => exact ha.1 ⟨st, hn⟩
  rw [ho.within hregion here] at hv
  exact ⟨asked, before, hasks, t, scope, t', ht, hf, hv, State.persistent_grows.trans hg hl⟩

namespace Called

variable {levels : Nat} {node : Node} {here : Standing} {demand : Demand} {last : State}

/-- Where a node was called at, all its parts were. -/
theorem parts (hk : w.Keeps P S T) (hn : node.Throughout P here)
    (hb : Scope.bodyDepth ≤ demand.block.depth) (h : w.Called S T levels node here demand last) :
    ∃ fewer, levels = fewer + 1 ∧ ∀ p, .part p ∈ node.stops w.setting →
      ∃ asked before, p.Asks demand before asked ∧
        w.Called S T fewer p.node ((here.inside node).part p.route) asked last := by
  obtain ⟨s, scope, s', hs, hf, hr, hl⟩ := h
  obtain ⟨t, t', hlife, hmemo, hc, hj, -⟩ := visit_ok_computed hf hr
  have ht : t.Holds S T := by
    constructor
    · rw [hlife]
      exact hs.recorded
    · rw [hmemo]
      exact hs.remembered
  have hlast : t'.Grows last := by
    unfold State.Grows State.Extends
    rw [hj]
    exact hl
  cases levels with
  | zero => cases hc
  | succ fewer =>
    rw [compute_succ] at hc
    refine ⟨fewer, rfl, fun p hp => ?_⟩
    exact hk.run_calls fewer here hn.own hb (Rule.node_tours w.setting node demand)
      (hk.node_honours hn.own hb) (node.stops_apart w.setting)
      (fun p hp => hn.part w.setting hp) (fun p hp => Node.opens_of_expr hp) ht
      (hf.of_memo hmemo) hc hlast hp

end Called

end Walker

/-! ### From a return to a local -/

/-- The visit of the expression at `path` found this out itself. -/
def Journal.Reports (journal : Journal) (path : Path) (diagnostic : Diagnostic) : Prop :=
  ∃ before demand after, journal.events.toList =
    before ++ .visited path demand false false :: .reported diagnostic :: after

/-- What was reported stays in the journal. -/
theorem State.Grows.reports {s t : State} (h : s.Grows t) {path : Path} {diagnostic : Diagnostic}
    (hr : s.journal.Reports path diagnostic) : t.journal.Reports path diagnostic := by
  obtain ⟨events, hg⟩ := h
  obtain ⟨before, demand, after, hj⟩ := hr
  refine ⟨before, demand, after ++ events, ?_⟩
  rw [hg, hj]
  simp

namespace Walker

variable {w : Walker} {P : Node → Prop} {S : Scope → Prop} {T : Nat → Lifetime → Prop}
  {levels : Nat} {here : Standing} {demand : Demand} {last : State}

/-- An expression that is asked for once was called at with the demand that follows from the one on
the whole. -/
theorem Called.once (hk : w.Keeps P S T) {node : Node} (hn : node.Throughout P here)
    (hb : Scope.bodyDepth ≤ demand.block.depth) (h : w.Called S T levels node here demand last)
    {route : Path} {e : Expr} {asked : Demand → Demand}
    (hp : .once route e asked ∈ node.stops w.setting) :
    (Node.expr e).Throughout P (here.part route) ∧
      ∃ fewer, w.Called S T fewer (.expr e) (here.part route) (asked demand) last := by
  have hinside := here.inside_of_checked (Node.opens_of_expr hp ⟨e, rfl⟩)
  have hpart := hn.part w.setting hp
  obtain ⟨fewer, -, hparts⟩ := h.parts hk hn hb
  obtain ⟨found, before, ⟨-, hasks⟩, hcalled⟩ := hparts _ hp
  have hasks : found = asked demand := hasks
  rw [hinside] at hpart hcalled
  rw [hasks] at hcalled
  exact ⟨hpart, fewer, hcalled⟩

/-- An analysis that ends well has walked the body to its end. -/
theorem walkBody_of_analyze_ok (w : Walker) {body : List Stmt} {outcome : Outcome}
    (h : (w.analyze body).result = .ok outcome) :
    ∃ s last, w.walkBody body w.initial = .ok () s ∧ s.Grows last ∧
      (w.analyze body).journal = last.journal ∧ outcome.lifetimes = s.lifetimes := by
  unfold analyze EStateM.run at h ⊢
  cases hw : w.walkBody body w.initial with
  | error failure s =>
    rw [hw] at h
    cases h
  | ok a s =>
    rw [hw] at h
    cases h
    exact ⟨s, s.note _, rfl, State.persistent_grows.note s _, rfl, rfl⟩

end Walker

end RefLifetime
