import Mathlib.Data.List.Nodup
import RefLifetime.Proofs.Run
import RefLifetime.Proofs.Sites
import RefLifetime.Proofs.Steady

/-!
# Memory is only an optimisation

A walker that remembers scopes is compared with one that computes every scope anew. The first visit
of a node finds nothing remembered and computes in both. Later visits are quiet and meet expressions
that are settled: one walker may recall the steady answer, the other computes it again, and neither
records or reports anything new.
-/

namespace RefLifetime

/-- The two tables record the same. -/
def Lifetimes.Same (table table' : Lifetimes) : Prop := ∀ id, table.get? id = table'.get? id

/-- Tables that record the same include each other. -/
theorem Lifetimes.Same.sub {table table' : Lifetimes} (h : table.Same table') :
    table.Sub table' :=
  fun id _ hl => (h id).symm.trans hl

namespace Lifetimes

/-- It does not matter which of the tables comes first. -/
theorem Same.symm {table table' : Lifetimes} (h : table.Same table') : table'.Same table :=
  fun id => (h id).symm

/-- Tables that record the same as a third one record the same. -/
theorem Same.trans {a b c : Lifetimes} (h : a.Same b) (h' : b.Same c) : a.Same c :=
  fun id => (h id).trans (h' id)

private theorem Same.insert {table table' : Lifetimes} (h : table.Same table') (id : Nat)
    (lifetime : Lifetime) : (table.insert id lifetime).Same (table'.insert id lifetime) := by
  intro key
  rw [get?_insert, get?_insert, h key]

/-- Recording again what is recorded changes nothing. -/
theorem same_insert {table : Lifetimes} {id : Nat} {lifetime : Lifetime}
    (h : table.get? id = some lifetime) : table.Same (table.insert id lifetime) := by
  intro key
  rw [get?_insert]
  split
  · next hk => rw [hk, h]
  · rfl

end Lifetimes

namespace State

/-- The diagnostics and hints so far. -/
def findings (s : State) : List Diagnostic × List Nat :=
  (s.journal.diagnostics.toList, s.journal.hints)

private theorem findings_note (s : State) (event : Event) :
    (s.note event).findings =
      (s.findings.1 ++ event.diagnostic?.toList, s.findings.2 ++ event.hint?.toList) := by
  simp only [findings, note, Journal.diagnostics_push, Journal.hints_push]

/-- To note a visit is no finding. -/
theorem findings_visited (s : State) (path : Path) (demand : Demand) (quiet recalled : Bool) :
    (s.note (.visited path demand quiet recalled)).findings = s.findings := by
  simp [findings_note, Event.diagnostic?, Event.hint?]

/-- A declaration is no finding. -/
theorem findings_declare (s : State) (var : Local) (lifetime : Lifetime) :
    (s.declare var lifetime).findings = s.findings := by
  change (s.note (.declared var.name lifetime)).findings = _
  simp [findings_note, Event.diagnostic?, Event.hint?]

/-- Nothing is told in a quiet mood. -/
theorem tell_quiet (s : State) {mood : Mood} (hq : mood.quiet = true) (event : Event) :
    s.tell mood event = s := by
  simp [tell, hq]

end State

/-- What is remembered of a node and of everything inside it are steady answers. -/
def Node.Trusted (setting : Setting) (s : State) : Nat → Path → Node → Prop
  | 0, _, _ => True
  | levels + 1, path, node =>
    (∀ demand reading, s.memo.get? path demand = some reading →
      node.Steady setting (levels + 1) s.lifetimes demand reading.scope) ∧
      ∀ p, .part p ∈ node.stops setting → Node.Trusted setting s levels (path ++ p.route) p.node

/-- Trust in a node depends on what is remembered there and inside. -/
theorem Node.Trusted.mono {setting : Setting} {s s' : State} {levels : Nat} {path : Path}
    {node : Node} (h : node.Trusted setting s levels path)
    (hm : ∀ q demand, path <+: q → s'.memo.get? q demand = s.memo.get? q demand)
    (ht : s.lifetimes.Sub s'.lifetimes) : node.Trusted setting s' levels path := by
  induction levels generalizing path node with
  | zero => trivial
  | succ levels ih =>
    refine ⟨fun demand reading hr => ?_, fun p hp => ih (h.2 p hp) fun q demand hq => ?_⟩
    · rw [hm path demand (List.prefix_refl path)] at hr
      exact (h.1 demand reading hr).mono ht
    · exact hm q demand ((List.prefix_append path p.route).trans hq)

/-- What single steps and the visits of its parts respect, a tour does. -/
theorem Plan.Tours.persists {α : Type} {R : State → State → Prop} (hR : Persistent R)
    {visit : Visitor} {mood : Mood} {whole : Demand} {hazard : Prop} {Q : α → Prop}
    {seen : List Answer} {todo : List Stop} {p : Plan α} (h : Tours whole hazard Q seen todo p)
    (hs : ∀ x ∈ seen, ∀ demand inner s,
      R s (Ending.state (visit x.part.route x.part.node demand inner s)))
    (ht : Stop.All (fun part => ∀ demand inner s,
      R s (Ending.state (visit part.route part.node demand inner s))) todo) (s : State) :
    R s (Ending.state (p.run visit mood s)) := by
  induction h generalizing s with
  | done h => exact hR.refl s
  | fail hz => exact hR.refl s
  | @first seen todo part asked inner next hq ha hn ih =>
    rw [run_visit]
    refine hR.andThen (ht.head asked (inner.within mood) s) fun scope => ?_
    exact ih scope (List.forall_mem_cons.mpr ⟨ht.head, hs⟩) ht.tail
  | @again seen todo part asked inner next hq hx hf hd hn ih =>
    obtain ⟨x, hx, rfl⟩ := hx
    rw [run_visit]
    exact hR.andThen (hs x hx asked (inner.within mood) s) fun scope => ih scope hs ht
  | declare hz hn ih => exact hR.trans (hR.declare s _ _) (ih hs ht.tail _)
  | @designate seen todo var lifetime next h hn ih =>
    rw [run_lookup]
    cases s.lifetimes.get? var.id with
    | none =>
      rw [h]
      exact hR.trans (hR.declare s var lifetime) (ih lifetime hs ht.tail _)
    | some found => exact ih found hs ht.tail s
  | @lookup seen todo id cause next hz h hn ih =>
    rw [run_lookup]
    cases s.lifetimes.get? id with
    | none =>
      rw [h]
      exact hR.refl s
    | some found => exact ih found hs ht s
  | report hn ih => exact hR.trans (hR.tell s mood _) (ih hs ht _)
  | hint hn ih => exact hR.trans (hR.tell s mood _) (ih hs ht _)

/-- The computation of an answer leaves what is remembered of the node itself alone. -/
theorem Walker.compute_keeps_own (w : Walker) (levels : Nat) (mood : Mood) (path : Path)
    (node : Node) (demand asked : Demand) (s : State) :
    (Ending.state (w.compute (levels + 1) mood path node demand s)).memo.get? path asked =
      s.memo.get? path asked := by
  have hown : Persistent fun s t : State => t.memo.get? path asked = s.memo.get? path asked :=
    ⟨fun _ => rfl, fun h h' => h'.trans h, fun _ _ => rfl, fun _ _ _ => rfl⟩
  refine (Rule.node_tours w.setting node demand).persists hown (fun _ h => by cases h) ?_ s
  intro part hp given inner s
  exact w.visit_sameOutside levels inner (path ++ part.route) part.node given s path asked
    (Path.not_prefix_self path (node.stops_inside w.setting part hp))

/-! ### Later visits -/

/-- Nothing new is recorded or reported. -/
structure State.Unmoved (s s' : State) : Prop where
  lifetimes : s.lifetimes.Same s'.lifetimes
  findings : s'.findings = s.findings

private theorem State.Unmoved.trans {s t u : State} (h : s.Unmoved t) (h' : t.Unmoved u) :
    s.Unmoved u :=
  ⟨h.lifetimes.trans h'.lifetimes, h'.findings.trans h.findings⟩

/-- The visit answers steadily, moves nothing and leaves memory trustworthy. -/
def Walker.Recomputes (w : Walker) (levels : Nat) (mood : Mood) (path : Path) (node : Node)
    (demand : Demand) (s : State) : Prop :=
  ∃ scope s', w.visit levels mood path node demand s = .ok scope s' ∧
    node.Steady w.setting levels s.lifetimes demand scope ∧ s.Unmoved s' ∧
    (w.memoizes = true → node.Trusted w.setting s' levels path)

/-- All parts among the stops of the node at `path` are trusted. -/
def Walker.TrustsParts (w : Walker) (levels : Nat) (path : Path) (stops : List Stop) (s : State) :
    Prop :=
  w.memoizes = true → Stop.All (fun p => p.node.Trusted w.setting s levels (path ++ p.route)) stops

/-- After a visit of one part, that part and all others are trusted. -/
theorem Walker.TrustsParts.visit {w : Walker} {levels : Nat} {path : Path} {stops : List Stop}
    {s s' : State} {part : Part} (h : w.TrustsParts levels path stops s)
    (hap : stops.Pairwise Stop.Apart) (hp : .part part ∈ stops)
    (hm : s.SameOutside (path ++ part.route) s') (ht : s.lifetimes.Sub s'.lifetimes)
    (hpart : w.memoizes = true → part.node.Trusted w.setting s' levels (path ++ part.route)) :
    w.TrustsParts levels path stops s' := by
  intro hmem q hq
  rcases Stop.eq_or_apart hap hp hq with rfl | hapart
  · exact hpart hmem
  · refine (h hmem q hq).mono (fun r demand hr => hm r demand fun hpre => ?_) ht
    exact ((Path.apart_append_left path _ _).mpr hapart).excludes hpre hr

/-- A quiet tour over settled parts repeats what is recorded. -/
theorem Plan.Tours.run_settled {α : Type} {w : Walker} {levels : Nat} {path : Path} {mood : Mood}
    (hq : mood.quiet = true) {whole : Demand} {stops : List Stop} {table : Lifetimes}
    (hap : stops.Pairwise Stop.Apart)
    (hready : Stop.All (Part.Ready w.setting levels table whole.block) stops)
    (ih : ∀ mood path e demand s, mood.quiet = true →
      Node.Settled w.setting levels s.lifetimes demand.block (.expr e) →
      (w.memoizes = true → Node.Trusted w.setting s levels path (.expr e)) →
      w.Recomputes levels mood path (.expr e) demand s)
    {hazard : Prop} {Q : α → Prop} {seen : List Answer} {todo : List Stop} {p : Plan α}
    (h : Tours whole hazard Q seen todo p) (hseen : ∀ x ∈ seen, .part x.part ∈ stops)
    (htodo : Stop.All (.part · ∈ stops) todo) {a : α}
    (hsteady : p.Steady (Node.Steady w.setting levels table) table a) {s : State}
    (hsame : table.Same s.lifetimes) (htrust : w.TrustsParts levels path stops s) :
    ∃ s', p.run (fun route part asked inner => w.visit levels inner (path ++ route) part asked)
        mood s = .ok a s' ∧ s.Unmoved s' ∧ w.TrustsParts levels path stops s' := by
  have hvisit (part : Part) (hp : .part part ∈ stops) (asked : Demand) (inner : Mood)
      (hb : asked.block = part.block whole.block) {scope : Scope}
      (hs : part.node.Steady w.setting levels table asked scope) {s : State}
      (hsame : table.Same s.lifetimes) (htrust : w.TrustsParts levels path stops s) :
      ∃ s', w.visit levels (inner.within mood) (path ++ part.route) part.node asked s =
        .ok scope s' ∧ s.Unmoved s' ∧ w.TrustsParts levels path stops s' := by
    obtain ⟨⟨e, he⟩, hsettled⟩ := hready part hp
    rw [he] at hsettled hs ⊢
    have hso :=
      w.visit_sameOutside levels (inner.within mood) (path ++ part.route) (.expr e) asked s
    obtain ⟨scope', s', hv, hst, hun, htr⟩ := ih (inner.within mood) (path ++ part.route) e asked s
      (by simp [Mood.within, hq]) (hb ▸ hsettled.mono hsame.sub)
      (fun hmem => he ▸ htrust hmem part hp)
    -- The answer of the visit is steady too, and a table has at most one steady answer.
    obtain rfl : scope' = scope := Node.Steady.unique (hst.mono hsame.symm.sub) hs
    rw [hv] at hso
    refine ⟨s', hv, hun, htrust.visit hap hp hso hun.lifetimes.sub ?_⟩
    rw [he]
    exact htr
  induction h generalizing s with
  | @done seen b h =>
    obtain rfl : b = a := hsteady
    exact ⟨s, rfl, ⟨fun _ => rfl, rfl⟩, htrust⟩
  | fail hz => exact hsteady.elim
  | @first seen todo part asked inner next hq' ha hn ih' =>
    obtain ⟨scope, hs, hrest⟩ := hsteady
    obtain ⟨s₁, hv, hun, htr⟩ := hvisit part htodo.head asked inner ha.1 hs hsame htrust
    obtain ⟨s₂, hr, hun', htr'⟩ := ih' scope (List.forall_mem_cons.mpr ⟨htodo.head, hseen⟩)
      htodo.tail hrest (hsame.trans hun.lifetimes) htr
    exact ⟨s₂, by rw [run_visit, hv]; exact hr, hun.trans hun', htr'⟩
  | again hq' hx hf hd hn ih' =>
    obtain ⟨x, hx, rfl⟩ := hx
    obtain ⟨scope, hs, hrest⟩ := hsteady
    obtain ⟨s₁, hv, hun, htr⟩ :=
      hvisit x.part (hseen x hx) _ _ (congrArg Demand.block hd) hs hsame htrust
    obtain ⟨s₂, hr, hun', htr'⟩ := ih' scope hseen htodo hrest (hsame.trans hun.lifetimes) htr
    exact ⟨s₂, by rw [run_visit, hv]; exact hr, hun.trans hun', htr'⟩
  | @declare seen todo var lifetime next hz hn ih' =>
    have hl : s.lifetimes.get? var.id = some lifetime := (hsame var.id).symm.trans hsteady.1
    have hun : s.Unmoved (s.declare var lifetime) :=
      ⟨Lifetimes.same_insert hl, s.findings_declare var lifetime⟩
    obtain ⟨s₂, hr, hun', htr'⟩ := ih' hseen htodo.tail hsteady.2 (hsame.trans hun.lifetimes)
      (fun hmem q hq => (htrust hmem q hq).mono (fun _ _ _ => rfl) hun.lifetimes.sub)
    exact ⟨s₂, hr, hun.trans hun', htr'⟩
  | @designate seen todo var lifetime next h hn ih' =>
    obtain ⟨found, hl, hrest⟩ := hsteady
    obtain ⟨s₂, hr, hun, htr⟩ := ih' found hseen htodo.tail hrest hsame htrust
    refine ⟨s₂, ?_, hun, htr⟩
    rw [run_lookup, ← hsame var.id, hl]
    exact hr
  | @lookup seen todo id cause next hz h hn ih' =>
    obtain ⟨found, hl, hrest⟩ := hsteady
    obtain ⟨s₂, hr, hun, htr⟩ := ih' found hseen htodo hrest hsame htrust
    refine ⟨s₂, ?_, hun, htr⟩
    rw [run_lookup, ← hsame id, hl]
    exact hr
  | report hn ih' =>
    rw [run_report, s.tell_quiet hq]
    exact ih' hseen htodo hsteady hsame htrust
  | hint hn ih' =>
    rw [run_hint, s.tell_quiet hq]
    exact ih' hseen htodo hsteady hsame htrust

/-- Remembering a steady answer for a node leaves the node trusted. -/
theorem Node.Trusted.remember {setting : Setting} {s s' : State} {levels : Nat} {path : Path}
    {node : Node} {demand : Demand} {reading : Reading}
    (hold : ∀ demand reading, s.memo.get? path demand = some reading →
      node.Steady setting (levels + 1) s'.lifetimes demand reading.scope)
    (hkeep : ∀ demand, s'.memo.get? path demand = s.memo.get? path demand)
    (hparts : Stop.All (fun p => p.node.Trusted setting s' levels (path ++ p.route))
      (node.stops setting))
    (hnew : node.Steady setting (levels + 1) s'.lifetimes demand reading.scope) :
    node.Trusted setting (s'.remember path demand reading) (levels + 1) path := by
  refine ⟨fun asked found hf => ?_, fun p hp => ?_⟩
  · simp only [State.remember, Memo.get?_insert] at hf
    split at hf
    · next he =>
      cases he
      cases hf
      exact hnew
    · exact hold asked found ((hkeep asked).symm.trans hf)
  · refine (hparts p hp).mono (fun q asked hq => ?_) fun _ _ h => h
    have hne : ¬ (q, asked) = (path, demand) := by
      rintro ⟨rfl, rfl⟩
      exact Path.not_prefix_self _ (node.stops_inside setting p hp) hq
    simp only [State.remember, Memo.get?_insert, hne, if_false]

/-- A quiet visit of a settled expression gives its steady answer, recalled or computed again, and
moves nothing. -/
theorem Walker.visit_settled (w : Walker) {levels : Nat} {mood : Mood} {path : Path} {e : Expr}
    {demand : Demand} {s : State} (hq : mood.quiet = true)
    (hs : Node.Settled w.setting levels s.lifetimes demand.block (.expr e))
    (ht : w.memoizes = true → Node.Trusted w.setting s levels path (.expr e)) :
    w.Recomputes levels mood path (.expr e) demand s := by
  induction levels generalizing mood path e demand s with
  | zero => exact hs.elim
  | succ levels ih =>
    cases hr : w.remembered s path demand mood.quiet with
    | some scope =>
      obtain ⟨hmem, reading, hread, rfl, -⟩ := w.remembered_eq_some hr
      refine ⟨reading.scope, _, visit_recalled w hr, (ht hmem).1 demand reading hread, ?_, ?_⟩
      · exact ⟨fun _ => rfl, s.findings_visited path demand mood.quiet true⟩
      · exact fun _ => (ht hmem).mono (fun _ _ _ => rfl) fun _ _ h => h
    | none =>
      obtain ⟨scope, hsteady⟩ := hs.2 demand rfl
      let s₁ := s.note (.visited path demand mood.quiet false)
      have hnote : s.Unmoved s₁ := ⟨fun _ => rfl, s.findings_visited path demand mood.quiet false⟩
      have hparts : Stop.All (Part.Ready w.setting levels s.lifetimes demand.block)
          (e.stops w.setting) :=
        fun p hp => ⟨(e.stops_inner w.setting p hp).2.2, hs.1 p hp⟩
      have htrust : w.TrustsParts levels path (e.stops w.setting) s₁ :=
        fun hmem p hp => ((ht hmem).2 p hp).mono (fun _ _ _ => rfl) fun _ _ h => h
      have htours := Rule.node_tours w.setting (.expr e) demand
      obtain ⟨s₂, hrun, hun, htr⟩ := htours.run_settled hq (e.stops_apart w.setting) hparts
        (fun _ _ _ _ _ hq hs ht => ih hq hs ht) (fun _ h => by cases h) (fun _ h => h) hsteady
        hnote.lifetimes htrust
      have hown (asked : Demand) := w.compute_keeps_own levels mood path (.expr e) demand asked s₁
      rw [compute_succ, hrun] at hown
      have hmoved := hnote.trans hun
      refine ⟨scope, s₂.remember path demand ⟨scope, mood.quiet⟩, ?_, hsteady, ?_, fun hmem => ?_⟩
      · rw [visit_computed w hr, compute_succ, hrun]
        rfl
      · exact ⟨hmoved.lifetimes, hmoved.findings⟩
      · refine Node.Trusted.remember (s := s) ?_ hown (htr hmem) (hsteady.mono hmoved.lifetimes.sub)
        exact fun asked reading h => ((ht hmem).1 asked reading h).mono hmoved.lifetimes.sub

/-! ### First visits -/

/-- The same walker without memory. -/
def Walker.afresh (w : Walker) : Walker := { w with memoizes := false }

namespace State

/-- The same is recorded, reported and hinted at. -/
structure Parallel (s t : State) : Prop where
  lifetimes : s.lifetimes.Same t.lifetimes
  findings : s.findings = t.findings

/-- Locals are declared, none but those in `ids`, and nothing that was declared has changed. -/
structure Declares (ids : List Nat) (s s' : State) : Prop where
  sub : s.lifetimes.Sub s'.lifetimes
  others : ∀ id, id ∉ ids → s'.lifetimes.get? id = s.lifetimes.get? id

variable {s t s' t' s'' : State} {ids ids' : List Nat}

private theorem Parallel.note (h : s.Parallel t) (event : Event) :
    (s.note event).Parallel (t.note event) :=
  ⟨h.lifetimes, by rw [findings_note, findings_note, h.findings]⟩

private theorem Parallel.tell (h : s.Parallel t) (mood : Mood) (event : Event) :
    (s.tell mood event).Parallel (t.tell mood event) := by
  unfold State.tell
  split
  · exact h
  · exact h.note event

private theorem Parallel.declare (h : s.Parallel t) (var : Local) (lifetime : Lifetime) :
    (s.declare var lifetime).Parallel (t.declare var lifetime) :=
  ⟨h.lifetimes.insert var.id lifetime, by rw [findings_declare, findings_declare, h.findings]⟩

/-- States that do not move stay parallel. -/
theorem Parallel.unmoved (h : s.Parallel t) (hs : s.Unmoved s') (ht : t.Unmoved t') :
    s'.Parallel t' :=
  ⟨(hs.lifetimes.symm.trans h.lifetimes).trans ht.lifetimes,
    (hs.findings.trans h.findings).trans ht.findings.symm⟩

private theorem Declares.refl (ids : List Nat) (s : State) : Declares ids s s :=
  ⟨fun _ _ h => h, fun _ _ => rfl⟩

/-- Two stretches of a walk declare what either of them does. -/
theorem Declares.trans (h : Declares ids s s') (h' : Declares ids' s' s'') :
    Declares (ids ++ ids') s s'' := by
  refine ⟨h.sub.trans h'.sub, fun id hid => ?_⟩
  rw [h'.others id fun hm => hid (List.mem_append_right _ hm),
    h.others id fun hm => hid (List.mem_append_left _ hm)]

private theorem Unmoved.declares (h : s.Unmoved s') : Declares [] s s' :=
  ⟨h.lifetimes.sub, fun id _ => (h.lifetimes id).symm⟩

private theorem declares_tell (s : State) (mood : Mood) (event : Event) :
    Declares [] s (s.tell mood event) := by
  unfold State.tell
  split
  · exact Declares.refl [] s
  · exact ⟨fun _ _ h => h, fun _ _ => rfl⟩

/-- A local that is declared for the first time. -/
theorem declares_declare {var : Local} (lifetime : Lifetime)
    (h : s.lifetimes.get? var.id = none) : Declares [var.id] s (s.declare var lifetime) := by
  constructor
  · intro id found hf
    have hne : id ≠ var.id := by
      rintro rfl
      rw [h] at hf
      cases hf
    simpa [State.declare, Lifetimes.get?_insert, hne] using hf
  · intro id hid
    have hne : id ≠ var.id := by simpa using hid
    simp [State.declare, Lifetimes.get?_insert, hne, State.note]

end State

namespace Walker

/-- The part of the node at `path`, in `block`, is settled and trusted. -/
structure Visited (w : Walker) (levels : Nat) (path : Path) (block : Scope) (s : State)
    (p : Part) : Prop where
  settled : p.node.Settled w.setting levels s.lifetimes (p.block block)
  trusted : p.node.Trusted w.setting s levels (path ++ p.route)

/-- A part stays settled and trusted while the walk is elsewhere and no record is lost. -/
theorem Visited.mono {w : Walker} {levels : Nat} {path : Path} {block : Scope} {s s' : State}
    {p : Part} (h : w.Visited levels path block s p) {route : Path}
    (hm : s.SameOutside (path ++ route) s') (hr : route.Apart p.route)
    (ht : s.lifetimes.Sub s'.lifetimes) : w.Visited levels path block s' p := by
  refine ⟨h.settled.mono ht, h.trusted.mono (fun q demand hq => hm q demand fun hp => ?_) ht⟩
  exact ((Path.apart_append_left path _ _).mpr hr).excludes hp hq

/-- What holds when a tour has come this far: the parts that were seen are settled, of those ahead
nothing is remembered, and the locals that are still to be declared differ and are not declared. -/
structure Underway (w : Walker) (levels : Nat) (path : Path) (block : Scope) (seen : List Answer)
    (todo : List Stop) (s : State) : Prop where
  visited : ∀ x ∈ seen, w.Visited levels path block s x.part
  seenApart : ∀ x ∈ seen, ∀ y ∈ seen, x.part = y.part ∨ x.part.route.Apart y.part.route
  apart : todo.Pairwise Stop.Apart
  ahead : ∀ x ∈ seen, ∀ q, .part q ∈ todo → q.route.Apart x.part.route
  fresh : ∀ q, .part q ∈ todo → s.Fresh (path ++ q.route)
  nodup : (Stop.ids (Node.ids w.setting levels) todo).Nodup
  undeclared : ∀ id ∈ Stop.ids (Node.ids w.setting levels) todo, s.lifetimes.get? id = none

namespace Underway

variable {w : Walker} {levels : Nat} {path : Path} {block : Scope} {seen : List Answer}
  {todo : List Stop} {s s' : State}

/-- A tour begins where everything is still ahead. -/
theorem start (hap : todo.Pairwise Stop.Apart) (hf : Stop.All (s.Fresh <| path ++ ·.route) todo)
    (hn : (Stop.ids (Node.ids w.setting levels) todo).Nodup)
    (hu : ∀ id ∈ Stop.ids (Node.ids w.setting levels) todo, s.lifetimes.get? id = none) :
    w.Underway levels path block [] todo s :=
  ⟨by simp, by simp, hap, by simp, hf, hn, hu⟩

/-- After the first visit of a part. -/
theorem first {q : Part} {demand : Demand} {scope : Scope}
    (h : w.Underway levels path block seen (.part q :: todo) s)
    (hm : s.SameOutside (path ++ q.route) s')
    (hd : s.Declares (q.node.ids w.setting levels) s')
    (hv : w.Visited levels path block s' q) :
    w.Underway levels path block (⟨q, demand, scope⟩ :: seen) todo s' := by
  have hapart := List.pairwise_cons.mp h.apart
  have hids := List.nodup_append.mp h.nodup
  have hnew (x : Answer) (hx : x ∈ seen) : q.route.Apart x.part.route :=
    h.ahead x hx q List.mem_cons_self
  refine ⟨?_, ?_, hapart.2, ?_, ?_, hids.2.1, ?_⟩
  · intro x hx
    rcases List.mem_cons.mp hx with rfl | hx
    · exact hv
    · exact (h.visited x hx).mono hm (hnew x hx) hd.sub
  · intro x hx y hy
    rcases List.mem_cons.mp hx with rfl | hx <;> rcases List.mem_cons.mp hy with rfl | hy
    · exact .inl rfl
    · exact .inr (hnew y hy)
    · exact .inr (hnew x hx).symm
    · exact h.seenApart x hx y hy
  · intro x hx r hr
    rcases List.mem_cons.mp hx with rfl | hx
    · exact Path.Apart.symm (hapart.1 _ hr)
    · exact h.ahead x hx r (List.mem_cons_of_mem _ hr)
  · intro r hr
    refine (h.fresh r (List.mem_cons_of_mem _ hr)).of_sameOutside hm ?_
    exact (Path.apart_append_left path _ _).mpr (hapart.1 _ hr)
  · intro id hid
    have hne : id ∉ q.node.ids w.setting levels := fun hq => hids.2.2 id hq id hid rfl
    rw [hd.others id hne]
    exact h.undeclared id (List.mem_append_right _ hid)

/-- After another visit of a part that was seen. -/
theorem again {x : Answer} (h : w.Underway levels path block seen todo s) (hx : x ∈ seen)
    (hm : s.SameOutside (path ++ x.part.route) s') (hu : s.Unmoved s')
    (hv : w.Visited levels path block s' x.part) : w.Underway levels path block seen todo s' := by
  refine ⟨fun y hy => ?_, h.seenApart, h.apart, h.ahead, fun q hq => ?_, h.nodup, fun id hid => ?_⟩
  · rcases h.seenApart x hx y hy with he | hr
    · exact he ▸ hv
    · exact (h.visited y hy).mono hm hr hu.lifetimes.sub
  · refine (h.fresh q hq).of_sameOutside hm ((Path.apart_append_left path _ _).mpr ?_)
    exact (h.ahead x hx q hq).symm
  · rw [← hu.lifetimes id]
    exact h.undeclared id hid

/-- After the declaration of a local. -/
theorem declare {var : Local} (h : w.Underway levels path block seen (.site var.id :: todo) s)
    (lifetime : Lifetime) : w.Underway levels path block seen todo (s.declare var lifetime) := by
  have hids := List.nodup_cons.mp h.nodup
  have hd := State.declares_declare lifetime (h.undeclared var.id List.mem_cons_self)
  refine ⟨fun x hx => ?_, h.seenApart, (List.pairwise_cons.mp h.apart).2, ?_, ?_, hids.2, ?_⟩
  · exact ⟨(h.visited x hx).settled.mono hd.sub,
      (h.visited x hx).trusted.mono (fun _ _ _ => rfl) hd.sub⟩
  · exact fun x hx q hq => h.ahead x hx q (List.mem_cons_of_mem _ hq)
  · exact fun q hq => h.fresh q (List.mem_cons_of_mem _ hq)
  · intro id hid
    rw [hd.others id]
    · exact h.undeclared id (List.mem_cons_of_mem _ hid)
    · intro hm
      rw [List.mem_singleton] at hm
      exact hids.1 (hm ▸ hid)

/-- A report or a hint does not disturb a tour. -/
theorem tell (h : w.Underway levels path block seen todo s) (mood : Mood) (event : Event) :
    w.Underway levels path block seen todo (s.tell mood event) := by
  unfold State.tell
  split
  · exact h
  · refine ⟨fun x hx => ?_, h.seenApart, h.apart, h.ahead, h.fresh, h.nodup, h.undeclared⟩
    exact ⟨(h.visited x hx).settled,
      (h.visited x hx).trusted.mono (fun _ _ _ => rfl) fun _ _ hl => hl⟩

end Underway

/-- The visit and the same visit without memory end alike and leave the node settled and trusted. -/
def Matches (w : Walker) (levels : Nat) (mood : Mood) (path : Path) (node : Node) (demand : Demand)
    (s t : State) : Prop :=
  Ending.Alike
    (fun a s' b t' => a = b ∧ s'.Parallel t' ∧ s.Declares (node.ids w.setting levels) s' ∧
      node.Steady w.setting levels s'.lifetimes demand a ∧
      node.Settled w.setting levels s'.lifetimes demand.block ∧
      node.Trusted w.setting s' levels path)
    (fun s' t' => s'.findings = t'.findings)
    (w.visit levels mood path node demand s) (w.afresh.visit levels mood path node demand t)

/-- A reporting visit of a node that nothing is remembered about, and whose locals differ and are
not declared, is matched by the visit without memory. -/
def MatchesFirst (w : Walker) (levels : Nat) : Prop :=
  ∀ mood path node demand s t, mood.quiet = false → s.Parallel t → s.Fresh path →
    (node.ids w.setting levels).Nodup →
    (∀ id ∈ node.ids w.setting levels, s.lifetimes.get? id = none) →
    w.Matches levels mood path node demand s t

/-- What a tour of a node brings about when it ends well. -/
structure Toured {α : Type} (w : Walker) (levels : Nat) (path : Path) (block : Scope)
    (seen : List Answer) (todo : List Stop) (p : Plan α) (s : State) (a : α) (s' : State) :
    Prop where
  declares : s.Declares (Stop.ids (Node.ids w.setting levels) todo) s'
  steady : p.Steady (Node.Steady w.setting levels s'.lifetimes) s'.lifetimes a
  sites : ∀ id, .site id ∈ todo → ∃ lifetime, s'.lifetimes.get? id = some lifetime
  visited : Stop.All (w.Visited levels path block s') todo
  seen : ∀ x ∈ seen, w.Visited levels path block s' x.part

namespace Toured

variable {α : Type} {w : Walker} {levels : Nat} {path : Path} {block : Scope} {seen : List Answer}
  {todo : List Stop} {s s₁ s' : State} {a : α}

private theorem first {q : Part} {demand : Demand} {inner : Mood} {scope : Scope}
    {next : Scope → Plan α} (hd : s.Declares (q.node.ids w.setting levels) s₁)
    (hs : q.node.Steady w.setting levels s₁.lifetimes demand scope)
    (h : w.Toured levels path block (⟨q, demand, scope⟩ :: seen) todo (next scope) s₁ a s') :
    w.Toured levels path block seen (.part q :: todo) (.visit q.route q.node demand inner next) s a
      s' where
  declares := hd.trans h.declares
  steady := ⟨scope, hs.mono h.declares.sub, h.steady⟩
  sites id hid := h.sites id (by simpa using hid)
  visited := h.visited.cons (h.seen _ List.mem_cons_self)
  seen x hx := h.seen x (List.mem_cons_of_mem _ hx)

/-- A step that declares nothing. -/
theorem step {p p' : Plan α} (hd : s.Declares [] s₁)
    (h : w.Toured levels path block seen todo p s₁ a s')
    (hp : p.Steady (Node.Steady w.setting levels s'.lifetimes) s'.lifetimes a →
      p'.Steady (Node.Steady w.setting levels s'.lifetimes) s'.lifetimes a) :
    w.Toured levels path block seen todo p' s a s' where
  declares := hd.trans h.declares
  steady := hp h.steady
  sites := h.sites
  visited := h.visited
  seen := h.seen

/-- A declaration of a local, in a plan that continues if the local is found declared so. -/
theorem declare {var : Local} {lifetime : Lifetime} {p p' : Plan α}
    (hn : s.lifetimes.get? var.id = none)
    (h : w.Toured levels path block seen todo p (s.declare var lifetime) a s')
    (hp : s'.lifetimes.get? var.id = some lifetime →
      p.Steady (Node.Steady w.setting levels s'.lifetimes) s'.lifetimes a →
      p'.Steady (Node.Steady w.setting levels s'.lifetimes) s'.lifetimes a) :
    w.Toured levels path block seen (.site var.id :: todo) p' s a s' := by
  have hl : s'.lifetimes.get? var.id = some lifetime :=
    h.declares.sub var.id lifetime (by simp [State.declare, Lifetimes.get?_insert])
  refine ⟨(State.declares_declare lifetime hn).trans h.declares, hp hl h.steady, fun id hid => ?_,
    h.visited.cons_site, h.seen⟩
  rcases List.mem_cons.mp hid with hid | hid
  · cases hid
    exact ⟨lifetime, hl⟩
  · exact h.sites id hid

end Toured

end Walker

/-- A tour and the same tour without memory end alike, if first visits do. -/
theorem Plan.Tours.run_first {α : Type} {w : Walker} {levels : Nat} {path : Path} {mood : Mood}
    (hw : w.memoizes = true) (hq : mood.quiet = false) {whole : Demand}
    (ih : w.MatchesFirst levels)
    {hazard : Prop} {Q : α → Prop} {seen : List Answer} {todo : List Stop} {p : Plan α}
    (h : Tours whole hazard Q seen todo p) {s t : State} (hp : s.Parallel t)
    (hu : w.Underway levels path whole.block seen todo s) :
    Ending.Alike
      (fun a s' b t' => a = b ∧ s'.Parallel t' ∧
        w.Toured levels path whole.block seen todo p s a s')
      (fun s' t' => s'.findings = t'.findings)
      (p.run (fun route part asked inner => w.visit levels inner (path ++ route) part asked) mood s)
      (p.run (fun route part asked inner => w.afresh.visit levels inner (path ++ route) part asked)
        mood t) := by
  induction h generalizing s t with
  | done h =>
    exact .ok ⟨rfl, hp, State.Declares.refl _ s, rfl, by simp, Stop.all_nil, hu.visited⟩
  | fail hz => exact .error hp.findings
  | @first seen todo part asked inner next hq' ha hn ih' =>
    have hids := List.nodup_append.mp hu.nodup
    have hso :=
      w.visit_sameOutside levels (inner.within mood) (path ++ part.route) part.node asked s
    have hm := ih (inner.within mood) (path ++ part.route) part.node asked s t
      (by simp [Mood.within, hq, hq'.1]) hp (hu.fresh part List.mem_cons_self) hids.1
      (fun id hid => hu.undeclared id (List.mem_append_left _ hid))
    rw [run_visit, run_visit]
    refine (hm.and_state hso).andThen ?_ fun _ _ h => h
    rintro scope s₁ _ t₁ ⟨hso, rfl, hp₁, hd, hst, hse, htr⟩
    have hv : w.Visited levels path whole.block s₁ part := ⟨ha.1 ▸ hse, htr⟩
    refine (ih' scope hp₁ (hu.first hso hd hv)).imp ?_ fun _ _ h => h
    rintro a s₂ _ t₂ ⟨rfl, hp₂, hend⟩
    exact ⟨rfl, hp₂, hend.first hd hst⟩
  | @again seen todo part asked inner next hq' hx hf hd hn ih' =>
    obtain ⟨x, hx, rfl⟩ := hx
    obtain ⟨e, he⟩ := hf.2
    have hv := hu.visited x hx
    have hso :=
      w.visit_sameOutside levels (inner.within mood) (path ++ x.part.route) x.part.node asked s
    have hse := hv.settled
    have htr := hv.trusted
    have hb : x.part.block whole.block = asked.block := by rw [hd]; rfl
    have hquiet : (inner.within mood).quiet = true := by simp [Mood.within, hq']
    rw [he, hb] at hse
    rw [he] at htr
    rw [run_visit, run_visit, he]
    -- The part is settled, so whether its answer is recalled or computed again makes no difference.
    obtain ⟨scope, s₁, hvs, hst, hus, htr₁⟩ := w.visit_settled hquiet hse fun _ => htr
    have hafresh : w.afresh.Recomputes levels (inner.within mood) (path ++ x.part.route) (.expr e)
        asked t :=
      w.afresh.visit_settled hquiet (hse.mono hp.lifetimes.sub) (by simp [Walker.afresh])
    obtain ⟨scope', t₁, hvt, hst', hut, -⟩ := hafresh
    obtain rfl : scope' = scope := hst'.unique (hst.mono hp.lifetimes.sub)
    rw [he, hvs] at hso
    rw [hvs, hvt]
    have hv₁ : w.Visited levels path whole.block s₁ x.part :=
      ⟨hv.settled.mono hus.lifetimes.sub, he ▸ htr₁ hw⟩
    refine (ih' scope' (hp.unmoved hus hut) (hu.again hx hso hus hv₁)).imp ?_ fun _ _ h => h
    rintro a s₂ _ t₂ ⟨rfl, hp₂, hend⟩
    refine ⟨rfl, hp₂, hend.step hus.declares fun hst₂ => ⟨scope', ?_, hst₂⟩⟩
    exact hst.mono (hus.lifetimes.sub.trans hend.declares.sub)
  | @declare seen todo var lifetime next hz hn ih' =>
    have hnone := hu.undeclared var.id List.mem_cons_self
    refine (ih' (hp.declare var lifetime) (hu.declare lifetime)).imp ?_ fun _ _ h => h
    rintro a s₂ _ t₂ ⟨rfl, hp₂, hend⟩
    exact ⟨rfl, hp₂, hend.declare hnone fun hl hst => ⟨hl, hst⟩⟩
  | @designate seen todo var lifetime next h hn ih' =>
    have hnone := hu.undeclared var.id List.mem_cons_self
    rw [run_lookup, run_lookup, ← hp.lifetimes, hnone, h]
    refine (ih' lifetime (hp.declare var lifetime) (hu.declare lifetime)).imp ?_ fun _ _ h => h
    rintro a s₂ _ t₂ ⟨rfl, hp₂, hend⟩
    exact ⟨rfl, hp₂, hend.declare hnone fun hl hst => ⟨lifetime, hl, hst⟩⟩
  | @lookup seen todo id cause next hz h hn ih' =>
    rw [run_lookup, run_lookup, ← hp.lifetimes]
    cases hl : s.lifetimes.get? id with
    | none =>
      rw [h]
      exact .error hp.findings
    | some found =>
      refine (ih' found hp hu).imp ?_ fun _ _ h => h
      rintro a s₂ _ t₂ ⟨rfl, hp₂, hend⟩
      exact ⟨rfl, hp₂, { hend with steady := ⟨found, hend.declares.sub id found hl, hend.steady⟩ }⟩
  | report hn ih' =>
    refine (ih' (hp.tell mood _) (hu.tell mood _)).imp ?_ fun _ _ h => h
    rintro a s₂ _ t₂ ⟨rfl, hp₂, hend⟩
    exact ⟨rfl, hp₂, hend.step (s.declares_tell mood _) id⟩
  | hint hn ih' =>
    refine (ih' (hp.tell mood _) (hu.tell mood _)).imp ?_ fun _ _ h => h
    rintro a s₂ _ t₂ ⟨rfl, hp₂, hend⟩
    exact ⟨rfl, hp₂, hend.step (s.declares_tell mood _) id⟩

namespace Walker

/-- The computation of a first answer and the same computation without memory end alike. -/
theorem compute_first {w : Walker} (hw : w.memoizes = true) {levels : Nat}
    (ih : w.MatchesFirst levels)
    {mood : Mood} (hq : mood.quiet = false) {path : Path} {node : Node} (demand : Demand)
    {s t : State} (hp : s.Parallel t) (hf : s.Fresh path)
    (hn : (node.ids w.setting (levels + 1)).Nodup)
    (hu : ∀ id ∈ node.ids w.setting (levels + 1), s.lifetimes.get? id = none) :
    Ending.Alike
      (fun a s' b t' => (∀ asked, s'.memo.get? path asked = none) ∧ a = b ∧ s'.Parallel t' ∧
        w.Toured levels path demand.block [] (node.stops w.setting)
          (Rule.node w.setting node demand) s a s')
      (fun s' t' => s'.findings = t'.findings)
      (w.compute (levels + 1) mood path node demand s)
      (w.afresh.compute (levels + 1) mood path node demand t) := by
  have htours := Rule.node_tours w.setting node demand
  have hown (asked : Demand) := w.compute_keeps_own levels mood path node demand asked s
  have hstart : w.Underway levels path demand.block [] (node.stops w.setting) s := by
    refine .start (node.stops_apart w.setting) (fun q _ r asked hr => ?_) hn hu
    exact hf r asked ((List.prefix_append path q.route).trans hr)
  refine (htours.run_first hw hq ih hp hstart).and_state fun asked => ?_
  exact (hown asked).trans (hf path asked (List.prefix_refl path))

/-- Without memory nothing is recalled. -/
theorem remembered_afresh (w : Walker) (s : State) (path : Path) (demand : Demand) (quiet : Bool) :
    w.afresh.remembered s path demand quiet = none := rfl

/-- The first visit of a node and the same visit without memory end alike. -/
theorem matchesFirst {w : Walker} (hw : w.memoizes = true) (levels : Nat) :
    w.MatchesFirst levels := by
  induction levels with
  | zero =>
    intro mood path node demand s t hq hp hf hn hu
    unfold Matches
    cases node with
    | stmt st =>
      rw [visit_stmt, visit_stmt]
      exact .error hp.findings
    | expr e =>
      rw [visit_computed w (w.remembered_fresh hf _ _),
        visit_computed w.afresh (w.remembered_afresh ..)]
      exact .error (hp.note _).findings
  | succ levels ih =>
    intro mood path node demand s t hq hp hf hn hu
    unfold Matches
    cases node with
    | stmt st =>
      rw [visit_stmt, visit_stmt]
      refine (compute_first hw ih hq demand hp hf hn hu).imp ?_ fun _ _ h => h
      rintro a s' _ t' ⟨hown, rfl, hp', hend⟩
      refine ⟨rfl, hp', hend.declares, hend.steady, trivial, ?_, fun p hp => ?_⟩
      · intro asked reading hr
        rw [hown asked] at hr
        cases hr
      · exact (hend.visited p hp).trusted
    | expr e =>
      rw [visit_computed w (w.remembered_fresh hf _ _),
        visit_computed w.afresh (w.remembered_afresh ..)]
      refine (compute_first hw ih hq demand (hp.note _) hf hn hu).andThen ?_ fun _ _ h => h
      rintro a s' _ t' ⟨hown, rfl, hp', hend⟩
      have hparts : Stop.All (Part.Ready w.setting levels s'.lifetimes demand.block)
          (e.stops w.setting) :=
        fun p hp => ⟨(e.stops_inner w.setting p hp).2.2, (hend.visited p hp).settled⟩
      have hdeclares := hend.declares
      -- Every site inside is declared by now, so one steady answer gives one for every demand.
      refine .ok ⟨rfl, ⟨hp'.lifetimes, hp'.findings⟩, ⟨hdeclares.sub, hdeclares.others⟩,
        hend.steady, ?_, ?_⟩
      · refine ⟨fun p hp => (hend.visited p hp).settled, fun asked hb => ?_⟩
        exact expr_steady hb hend.steady (hb ▸ hparts) hend.sites
      · refine Node.Trusted.remember (s := s') ?_ (fun _ => rfl) ?_ hend.steady
        · intro asked reading hr
          rw [hown asked] at hr
          cases hr
        · exact fun p hp => (hend.visited p hp).trusted

/-- When the walk of a body begins whose declaring sites differ, everything is still ahead. -/
theorem underway_initial (w : Walker) {body : List Stmt} (hn : (Stmt.listSites body).Nodup) :
    w.Underway w.limit [] Demand.methodBody.block [] (Stop.body body) w.initial := by
  refine .start (Stop.body_apart body) (fun q _ r asked _ => ?_) ?_ fun id _ => ?_
  · rw [w.initial_empty.2]
    rfl
  · rw [List.nodup_iff_count_le_one] at hn ⊢
    exact fun id => Nat.le_trans (Stop.count_ids_body_le w.setting w.limit body id) (hn id)
  · rw [w.initial_empty.1]
    rfl

/-- The walk of a body whose declaring sites differ ends as it does without memory. -/
theorem walkBody_first {w : Walker} (hw : w.memoizes = true) {body : List Stmt}
    (hn : (Stmt.listSites body).Nodup) :
    Ending.Alike (fun _ s' _ t' => s'.Parallel t') (fun s' t' => s'.findings = t'.findings)
      (w.walkBody body w.initial) (w.afresh.walkBody body w.afresh.initial) := by
  let mood : Mood := { region := .ofUnsafe w.setting.method.isUnsafe }
  have hq : mood.quiet = false := rfl
  have hsame : w.initial.Parallel w.afresh.initial := ⟨fun _ => rfl, rfl⟩
  have hrun := (Rule.body_tours body).run_first hw hq (matchesFirst hw w.limit) hsame
    (w.underway_initial hn)
  exact hrun.imp (fun _ _ _ _ h => h.2.1) fun _ _ h => h

end Walker

/-! ### Whole analyses -/

/-- The same scope of the body, the same hints and the same lifetime of every local. -/
structure Outcome.Same (o o' : Outcome) : Prop where
  root : o.root = o'.root
  hints : o.hints = o'.hints
  lifetimes : o.lifetimes.Same o'.lifetimes

/-- Two analyses fail for the same reason, or both succeed with the same outcome. -/
inductive Outcome.Agree : Except Failure Outcome → Except Failure Outcome → Prop
  | error (failure : Failure) : Agree (.error failure) (.error failure)
  | ok {o o' : Outcome} (h : o.Same o') : Agree (.ok o) (.ok o')

/-- Analyses one method body and computes every scope that is asked for, also when it was computed
before. -/
def analyzeAfresh (earlier : Diagnostics) (body : Body) (options : Options) :
    Except Failure Outcome × Diagnostics :=
  let walker : Walker :=
    { setting := ⟨options.rules, body.method⟩, limit := options.maxDepth, memoizes := false }
  let report := walker.analyze body.stmts
  (report.result, earlier ++ report.diagnostics)

/-- An analysis ends as its walk does. -/
theorem Walker.analyze_alike {w w' : Walker} {body : List Stmt}
    (h : Ending.Alike (fun _ s' _ t' => s'.Parallel t') (fun s' t' => s'.findings = t'.findings)
      (w.walkBody body w.initial) (w'.walkBody body w'.initial)) :
    Outcome.Agree (w.analyze body).result (w'.analyze body).result ∧
      (w.analyze body).diagnostics = (w'.analyze body).diagnostics := by
  have hdiagnostics {s t : State} (h : s.findings = t.findings) :
      s.journal.diagnostics = t.journal.diagnostics := congrArg (Diagnostics.mk ·.1) h
  unfold Walker.analyze EStateM.run
  generalize w.walkBody body w.initial = r at h ⊢
  generalize w'.walkBody body w'.initial = r' at h ⊢
  cases h with
  | ok hp =>
    refine ⟨.ok ⟨rfl, congrArg Prod.snd hp.findings, hp.lifetimes⟩, hdiagnostics ?_⟩
    rw [State.findings_note, State.findings_note, hp.findings]
    rfl
  | error hf => exact ⟨.error _, hdiagnostics hf⟩

/-- Memory is only an optimisation: if no two declaring sites of a body declare the same local, then
its analysis gives the same result and the same diagnostics as one that remembers nothing. -/
theorem analyzeInto_agrees_afresh (body : Body) (h : body.sites.Nodup) (options : Options)
    (earlier : Diagnostics) :
    Outcome.Agree (analyzeInto earlier body options).1 (analyzeAfresh earlier body options).1 ∧
      (analyzeInto earlier body options).2 = (analyzeAfresh earlier body options).2 := by
  let w : Walker := { setting := ⟨options.rules, body.method⟩, limit := options.maxDepth }
  obtain ⟨hresult, hdiagnostics⟩ := Walker.analyze_alike (Walker.walkBody_first (w := w) rfl h)
  exact ⟨hresult, congrArg (earlier ++ ·) hdiagnostics⟩

/-- A call passes on a reference that another call returns. The inner call is asked for its value a
second time, and of its first argument both answers are then recalled. -/
theorem analyzeInto_agrees_afresh_nested :
    let x : Local := { id := 0, name := "x", ty := .int, span := default }
    let y : Local := { id := 1, name := "y", ty := .int, kind := .designated, span := default }
    let g : Method :=
      { name := "g", returnTy := .int, returnPassing := .byRef, span := default,
        params := [{ name := "p", ty := .int, passing := .byRef, span := default },
          { name := "q", ty := .int, passing := .byOut, span := default }] }
    let inner : Expr :=
      ⟨.call none g [⟨⟨.localVar x, .int, default⟩, .byRef⟩, ⟨⟨.outVar y, .int, default⟩, .byOut⟩],
        .int, default⟩
    let body : Body :=
      ⟨{ name := "f", returnTy := .void, span := default },
        [.declare ⟨x, some ⟨.literal, .int, default⟩⟩,
          .eval ⟨.call none g [⟨inner, .byRef⟩, ⟨⟨.discard, .int, default⟩, .byOut⟩], .int,
            default⟩]⟩
    let recalled := (analyze body {}).journal.events.toList.filter fun
      | .visited _ _ _ recalled => recalled
      | _ => false
    recalled.length = 2 ∧ body.sites.Nodup ∧
      Outcome.Agree (analyzeInto {} body {}).1 (analyzeAfresh {} body {}).1 ∧
      (analyzeInto {} body {}).2 = (analyzeAfresh {} body {}).2 := by
  intro x y g inner body recalled
  have hsites : body.sites.Nodup := by decide
  exact ⟨by decide, hsites, analyzeInto_agrees_afresh body hsites {} {}⟩

end RefLifetime
