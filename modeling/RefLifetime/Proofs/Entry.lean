import RefLifetime.Proofs.Dangling
import RefLifetime.Proofs.Memory
import RefLifetime.Proofs.Nesting
import RefLifetime.Proofs.Silence

/-!
# First visits

If no two declaring sites of a body declare the same local, then every node of the body is entered
once in a reporting mood, from a state that knows nothing of the node and of the locals inside it.
What the visit leaves on record is never replaced, so it is on record when the walk is over
(`Walker.walkBody_enters`). `Body.Holds` says which nodes there are and how many blocks are open
around each.
-/

namespace RefLifetime

/-- The node stands in the body, with `k` blocks open around it. -/
inductive Body.Holds (setting : Setting) (body : Body) : Nat → Node → Prop
  | stmt {st : Stmt} (h : st ∈ body.stmts) : Holds setting body 0 (.stmt st)
  | part {k : Nat} {node : Node} {p : Part} (h : Holds setting body k node)
      (hp : .part p ∈ node.stops setting) :
      Holds setting body (if p.nested then k + 1 else k) p.node

/-- A part stands in the scope that belongs to the number of blocks around it. -/
theorem Part.block_nested (p : Part) (k : Nat) :
    p.block (Scope.nested k) = Scope.nested (if p.nested then k + 1 else k) := by
  unfold block
  split
  · rfl
  · rfl

/-- What stands for a member of a list is among what stands for the list. -/
theorem Stop.exists_subset_forEach {α : Type} (f : Nat → α → List Stop) {a : α} {items : List α}
    (h : a ∈ items) (start : Nat) : ∃ i, f i a ⊆ forEach f items start := by
  induction items generalizing start with
  | nil => cases h
  | cons first rest ih =>
    rcases List.mem_cons.mp h with rfl | h
    · exact ⟨start, List.subset_append_left _ _⟩
    · obtain ⟨i, hi⟩ := ih h (start + 1)
      exact ⟨i, List.Subset.trans hi (List.subset_append_right _ _)⟩

namespace Walker

/-- The node at `path` was visited in a reporting mood, from a state that knew nothing of it and of
the locals inside it, and what was on record afterwards is on record in `final`. -/
inductive Enters (w : Walker) (final : Lifetimes) (levels : Nat) (path : Path) (node : Node)
    (demand : Demand) : Prop
  | intro {mood : Mood} {s t : State} {scope : Scope} (loud : mood.quiet = false)
      (fresh : s.Fresh path) (nodup : (node.ids w.setting levels).Nodup)
      (new : ∀ id ∈ node.ids w.setting levels, s.lifetimes.get? id = none)
      (visit : w.visit levels mood path node demand s = .ok scope t)
      (kept : t.lifetimes.Sub final)

/-- The part of the node at `path` was entered, in the block that it stands in. -/
def EntersPart (w : Walker) (final : Lifetimes) (levels : Nat) (path : Path) (block : Scope)
    (p : Part) : Prop :=
  ∃ asked, asked.block = p.block block ∧ w.Enters final levels (path ++ p.route) p.node asked

variable {w : Walker} {levels : Nat} {mood : Mood} {path : Path} {node : Node} {demand : Demand}
  {s t : State} {scope : Scope}

/-- What a first visit leaves behind. -/
theorem matched_of_visit (hw : w.memoizes = true) (hq : mood.quiet = false) (hf : s.Fresh path)
    (hn : (node.ids w.setting levels).Nodup)
    (hu : ∀ id ∈ node.ids w.setting levels, s.lifetimes.get? id = none)
    (hv : w.visit levels mood path node demand s = .ok scope t) :
    s.Declares (node.ids w.setting levels) t ∧
      node.Steady w.setting levels t.lifetimes demand scope ∧
      node.Settled w.setting levels t.lifetimes demand.block ∧
      node.Trusted w.setting t levels path := by
  have hm := matchesFirst hw levels mood path node demand s s hq ⟨fun _ => rfl, rfl⟩ hf hn hu
  unfold Matches at hm
  rw [hv] at hm
  generalize w.afresh.visit levels mood path node demand s = r at hm
  cases hm with
  | ok h => exact h.2.2

namespace Underway

variable {block : Scope} {seen : List Answer} {todo : List Stop} {q : Part} {asked : Demand}

/-- A tour is still underway after the first visit of a part. -/
theorem of_first (hw : w.memoizes = true) (hq : mood.quiet = false)
    (h : w.Underway levels path block seen (.part q :: todo) s) (hb : asked.block = q.block block)
    (hv : w.visit levels mood (path ++ q.route) q.node asked s = .ok scope t) :
    w.Underway levels path block (⟨q, asked, scope⟩ :: seen) todo t := by
  have hids := List.nodup_append.mp h.nodup
  obtain ⟨hd, -, hsettled, htrusted⟩ := matched_of_visit hw hq (h.fresh q List.mem_cons_self)
    hids.1 (fun id hid => h.undeclared id (List.mem_append_left _ hid)) hv
  exact h.first (w.sameOutside_of_visit hv) hd ⟨hb ▸ hsettled, htrusted⟩

/-- A tour is still underway after another visit of a part, which changes no record. -/
theorem of_again (hw : w.memoizes = true) (hq : mood.quiet = true) {x : Answer}
    (h : w.Underway levels path block seen todo s) (hx : x ∈ seen)
    (he : ∃ e, x.part.node = .expr e) (hb : asked.block = x.part.block block)
    (hv : w.visit levels mood (path ++ x.part.route) x.part.node asked s = .ok scope t) :
    w.Underway levels path block seen todo t := by
  obtain ⟨e, he⟩ := he
  obtain ⟨hsettled, htrusted⟩ := h.visited x hx
  rw [he, ← hb] at hsettled
  rw [he] at htrusted
  obtain ⟨scope', t', hv', -, hun, htr⟩ := w.visit_settled hq hsettled fun _ => htrusted
  rw [← he, hv] at hv'
  cases hv'
  refine h.again hx (w.sameOutside_of_visit hv) hun ⟨?_, ?_⟩
  · rw [he, ← hb]
    exact hsettled.mono hun.lifetimes.sub
  · rw [he]
    exact htr hw

end Underway

/-- What is recorded on the way of a tour is on record at its end. -/
theorem Underway.sub_of_run {α : Type} (hw : w.memoizes = true) (hq : mood.quiet = false)
    {whole : Demand} {hazard : Prop} {Q : α → Prop} {seen : List Answer} {todo : List Stop}
    {plan : Plan α} (htours : plan.Tours whole hazard Q seen todo)
    (h : w.Underway levels path whole.block seen todo s) {a : α}
    (hrun : w.carryOut levels mood path plan s = .ok a t) : s.lifetimes.Sub t.lifetimes := by
  have hself : s.Parallel s := ⟨fun _ => rfl, rfl⟩
  have hend := htours.run_first hw hq (matchesFirst hw levels) hself h
  change Ending.Alike _ _ (w.carryOut levels mood path plan s) _ at hend
  rw [hrun] at hend
  generalize plan.run _ mood s = r at hend
  cases hend with
  | ok h => exact h.2.2.declares.sub

end Walker

/-- The parts that a tour calls at are entered. -/
theorem Plan.Tours.run_enters {α : Type} {w : Walker} {levels : Nat} {mood : Mood} {path : Path}
    (hw : w.memoizes = true) (hq : mood.quiet = false) {whole : Demand} {hazard : Prop}
    {Q : α → Prop} {seen : List Answer} {todo : List Stop} {plan : Plan α}
    (h : Tours whole hazard Q seen todo plan) {s t : State} {a : α} {final : Lifetimes}
    (hu : w.Underway levels path whole.block seen todo s)
    (hrun : w.carryOut levels mood path plan s = .ok a t) (hfinal : t.lifetimes.Sub final) :
    Stop.All (w.EntersPart final levels path whole.block) todo := by
  induction h generalizing s with
  | done h => exact Stop.all_nil
  | fail hz => cases hrun
  | @first seen todo part asked inner next ho ha hn ih =>
    have hstep := (run_visit ..).symm.trans hrun
    rw [Ending.andThen_eq_ok] at hstep
    obtain ⟨scope, s₁, hv, hrest⟩ := hstep
    have hids := List.nodup_append.mp hu.nodup
    have hloud : (inner.within mood).quiet = false := by simp [Mood.within, hq, ho.1]
    have hu₁ := hu.of_first hw hloud ha.1 hv
    have hkept := (hu₁.sub_of_run hw hq (hn scope) hrest).trans hfinal
    refine .cons ⟨asked, ha.1, .intro hloud (hu.fresh part List.mem_cons_self) hids.1 ?_ hv hkept⟩
      (ih scope hu₁ hrest)
    exact fun id hid => hu.undeclared id (List.mem_append_left _ hid)
  | @again seen todo part asked inner next ho hx hf hd hn ih =>
    obtain ⟨x, hx, rfl⟩ := hx
    have hstep := (run_visit ..).symm.trans hrun
    rw [Ending.andThen_eq_ok] at hstep
    obtain ⟨scope, s₁, hv, hrest⟩ := hstep
    have hquiet : (inner.within mood).quiet = true := by simp [Mood.within, ho]
    exact ih scope (hu.of_again hw hquiet hx hf.2 (by rw [hd]; rfl) hv) hrest
  | declare hz hn ih => exact .cons_site (ih (hu.declare _) hrun)
  | @designate seen todo var lifetime next h hn ih =>
    have hstep := (run_lookup ..).symm.trans hrun
    rw [hu.undeclared var.id List.mem_cons_self, h] at hstep
    exact .cons_site (ih lifetime (hu.declare lifetime) hstep)
  | @lookup seen todo id cause next hz h hn ih =>
    have hstep := (run_lookup ..).symm.trans hrun
    cases hl : s.lifetimes.get? id with
    | none =>
      rw [hl, h] at hstep
      cases hstep
    | some found =>
      rw [hl] at hstep
      exact ih found hu hstep
  | report hn ih => exact ih (hu.tell mood _) hrun
  | hint hn ih => exact ih (hu.tell mood _) hrun

namespace Walker

variable {w : Walker} {final : Lifetimes}

/-- A node that was entered has levels to go, and its parts were entered. -/
theorem Enters.parts (hw : w.memoizes = true) {levels : Nat} {path : Path} {node : Node}
    {demand : Demand} (h : w.Enters final levels path node demand) :
    ∃ fewer, levels = fewer + 1 ∧
      Stop.All (w.EntersPart final fewer path demand.block) (node.stops w.setting) := by
  obtain ⟨loud, fresh, nodup, new, visit, kept⟩ := h
  obtain ⟨t, t', hlife, hmemo, hc, -, hend⟩ := visit_ok_computed fresh visit
  cases levels with
  | zero => cases hc
  | succ fewer =>
    refine ⟨fewer, rfl, ?_⟩
    have hstart : w.Underway fewer path demand.block [] (node.stops w.setting) t := by
      refine .start (node.stops_apart w.setting) (fun q _ => ?_) nodup ?_
      · exact (fresh.of_memo hmemo).part q.route
      · rw [hlife]
        exact new
    exact (Rule.node_tours w.setting node demand).run_enters hw loud hstart hc (hend ▸ kept)

/-- The walk of a body whose declaring sites differ enters every node of it, in the block that it
stands in. -/
theorem walkBody_enters (hw : w.memoizes = true) {body : Body} (hn : body.sites.Nodup)
    {t : State} (hrun : w.walkBody body.stmts w.initial = .ok () t) {k : Nat} {node : Node}
    (h : body.Holds w.setting k node) :
    ∃ levels path demand, demand.block = Scope.nested k ∧
      w.Enters t.lifetimes levels path node demand := by
  induction h with
  | @stmt st hst =>
    have hparts := (Rule.body_tours body.stmts).run_enters hw rfl (w.underway_initial hn) hrun
      fun _ _ h => h
    obtain ⟨i, hi⟩ := Stop.exists_subset_forEach (fun i s => [Stop.stmt [.stmt i] s]) hst 0
    obtain ⟨asked, hasked, hpart⟩ := hparts _ (hi List.mem_cons_self)
    exact ⟨w.limit, _, asked, hasked, hpart⟩
  | @part k node p hnode hp ih =>
    obtain ⟨levels, path, demand, hblock, henters⟩ := ih
    obtain ⟨fewer, -, hparts⟩ := henters.parts hw
    obtain ⟨asked, hasked, hpart⟩ := hparts p hp
    refine ⟨fewer, path ++ p.route, asked, ?_, hpart⟩
    rw [hasked, hblock, p.block_nested]

end Walker

end RefLifetime
