import RefLifetime.Proofs.Run
import RefLifetime.Proofs.Sites
import RefLifetime.Proofs.Steady

/-!
# The same expression elsewhere

An expression that stands at two places is visited there from two states. A visit records lifetimes
only for the locals that are declared inside its node (`Walker.visit_recordsOnly`). A visit at
another place, with at least as many levels to go and with less on record, answers and reports the
same, or stops at a local that it does not find and has reported a part of it by then
(`Walker.visit_followed`).
-/

namespace RefLifetime

/-! ### What a visit records -/

/-- What is on record has changed for the locals in `ids` only. -/
def State.RecordsOnly (ids : List Nat) (s t : State) : Prop :=
  ∀ id, id ∉ ids → t.lifetimes.get? id = s.lifetimes.get? id

namespace State.RecordsOnly

variable {ids : List Nat} {s t u : State}

private theorem trans (h : s.RecordsOnly ids t) (h' : t.RecordsOnly ids u) : s.RecordsOnly ids u :=
  fun id hid => (h' id hid).trans (h id hid)

private theorem of_tell (mood : Mood) (event : Event) (h : (s.tell mood event).RecordsOnly ids t) :
    s.RecordsOnly ids t := by
  unfold State.tell at h
  split at h
  · exact h
  · exact h

private theorem of_declare {var : Local} {lifetime : Lifetime} (hv : var.id ∈ ids)
    (h : (s.declare var lifetime).RecordsOnly ids t) : s.RecordsOnly ids t := by
  intro id hid
  have hne : id ≠ var.id := by
    rintro rfl
    exact hid hv
  rw [h id hid]
  simp [State.declare, State.note, Lifetimes.get?_insert, hne]

end State.RecordsOnly

/-- A tour records what its sites declare and what the visits of its parts record. -/
theorem Plan.Tours.run_recordsOnly {α : Type} {visit : Visitor} {mood : Mood} {whole : Demand}
    {hazard : Prop} {Q : α → Prop} {seen : List Answer} {todo : List Stop} {p : Plan α}
    (h : Tours whole hazard Q seen todo p) {inside : Node → List Nat} {ids : List Nat}
    (hv : ∀ part : Part, inside part.node ⊆ ids → ∀ demand inner s,
      State.RecordsOnly ids s (Ending.state (visit part.route part.node demand inner s)))
    (hseen : ∀ x ∈ seen, inside x.part.node ⊆ ids) (htodo : Stop.ids inside todo ⊆ ids)
    (s : State) : s.RecordsOnly ids (Ending.state (p.run visit mood s)) := by
  have hvisit (part : Part) (hp : inside part.node ⊆ ids) (demand : Demand) (inner : Mood)
      (next : Scope → Plan α) (s : State)
      (hn : ∀ scope s', State.RecordsOnly ids s' (Ending.state ((next scope).run visit mood s'))) :
      s.RecordsOnly ids (Ending.state
        ((Plan.visit part.route part.node demand inner next).run visit mood s)) := by
    rw [run_visit]
    have h₁ := hv part hp demand (inner.within mood) s
    generalize visit part.route part.node demand (inner.within mood) s = r at h₁
    cases r with
    | ok scope s' => exact h₁.trans (hn scope s')
    | error cause s' => exact h₁
  induction h generalizing s with
  | done h => exact fun _ _ => rfl
  | fail hz => exact fun _ _ => rfl
  | @first seen todo part demand inner next hq ha hn ih =>
    have hsub := List.append_subset.mp htodo
    apply hvisit part hsub.1
    intro scope s'
    exact ih scope (List.forall_mem_cons.mpr ⟨hsub.1, hseen⟩) hsub.2 s'
  | @again seen todo part demand inner next hq hx hf hd hn ih =>
    obtain ⟨x, hx, rfl⟩ := hx
    apply hvisit x.part (hseen x hx)
    intro scope s'
    exact ih scope hseen htodo s'
  | declare hz hn ih =>
    have hsub := List.cons_subset.mp htodo
    exact .of_declare hsub.1 (ih hseen hsub.2 _)
  | @designate seen todo var lifetime next h hn ih =>
    have hsub := List.cons_subset.mp htodo
    rw [run_lookup]
    cases s.lifetimes.get? var.id with
    | none =>
      rw [h]
      exact .of_declare hsub.1 (ih lifetime hseen hsub.2 _)
    | some found => exact ih found hseen hsub.2 s
  | @lookup seen todo id cause next hz h hn ih =>
    rw [run_lookup]
    cases s.lifetimes.get? id with
    | none =>
      rw [h]
      exact fun _ _ => rfl
    | some found => exact ih found hseen htodo s
  | report hn ih => exact .of_tell mood _ (ih hseen htodo _)
  | hint hn ih => exact .of_tell mood _ (ih hseen htodo _)

/-- The walk comes by no declaration that is not in the syntax. -/
theorem Node.ids_subset_sites (setting : Setting) (levels : Nat) (node : Node) :
    node.ids setting levels ⊆ node.sites := by
  intro id hid
  have hle := Node.count_ids_le setting levels node id
  have hpos := List.count_pos_iff.mpr hid
  exact List.count_pos_iff.mp (Nat.lt_of_lt_of_le hpos hle)

namespace Walker

variable (w : Walker)

/-- A visit records nothing of locals whose declarations it does not come by. -/
theorem visit_recordsOnly_ids (levels : Nat) (mood : Mood) (path : Path) (node : Node)
    (demand : Demand) {ids : List Nat} (hids : node.ids w.setting levels ⊆ ids) (s : State) :
    s.RecordsOnly ids (Ending.state (w.visit levels mood path node demand s)) := by
  induction levels generalizing mood path node demand s with
  | zero =>
    have hm : Ending.Meets (fun _ => s.RecordsOnly ids) (s.RecordsOnly ids)
        (w.visit 0 mood path node demand s) := by
      apply w.visit_meets
      · exact fun _ _ _ _ => rfl
      · rintro t (rfl | rfl)
        · exact .error fun _ _ => rfl
        · exact .error fun _ _ => rfl
      · exact fun _ _ _ h => h
    exact hm.state (fun _ _ h => h) fun _ h => h
  | succ levels ih =>
    have hrun (t : State) : t.RecordsOnly ids
        (Ending.state (w.compute (levels + 1) mood path node demand t)) := by
      rw [compute_succ]
      refine (Rule.node_tours w.setting node demand).run_recordsOnly ?_ (by simp) hids t
      intro part hp asked inner s
      exact ih inner (path ++ part.route) part.node asked hp s
    have hm : Ending.Meets (fun _ => s.RecordsOnly ids) (s.RecordsOnly ids)
        (w.visit (levels + 1) mood path node demand s) := by
      apply w.visit_meets
      · exact fun _ _ _ _ => rfl
      · rintro t (rfl | rfl)
        · exact .of_state (hrun _)
        · exact .of_state (hrun _)
      · exact fun _ _ _ h => h
    exact hm.state (fun _ _ h => h) fun _ h => h

/-- A visit records nothing of locals that are not declared inside its node, also when it fails. -/
theorem visit_recordsOnly (levels : Nat) (mood : Mood) (path : Path) (node : Node)
    (demand : Demand) (s : State) :
    s.RecordsOnly node.sites (Ending.state (w.visit levels mood path node demand s)) :=
  w.visit_recordsOnly_ids levels mood path node demand (node.ids_subset_sites w.setting levels) s

end Walker

/-! ### Two places -/

namespace State

/-- What `t` has at `q` is what `s` has at `p`: the same is remembered there and below, and what is
on record in `t` is on record in `s`. For locals that are `known` the same is on record in both. -/
structure Shadows (known : Nat → Prop) (p q : Path) (s t : State) : Prop where
  sub : t.lifetimes.Sub s.lifetimes
  same : ∀ id, known id → t.lifetimes.get? id = s.lifetimes.get? id
  memo : ∀ route demand, t.memo.get? (q ++ route) demand = s.memo.get? (p ++ route) demand

/-- The state `t` shadows `s`, and as much was reported on the way from `t₀` to `t` as on the way
from `s₀` to `s`. -/
structure Follows (known : Nat → Prop) (p q : Path) (s₀ t₀ s t : State) : Prop
    extends Shadows known p q s t where
  reports : ∃ ds, s.journal.diagnostics.toList = s₀.journal.diagnostics.toList ++ ds ∧
    t.journal.diagnostics.toList = t₀.journal.diagnostics.toList ++ ds

/-- On the way from `t₀` to `t` a beginning was reported of what was reported on the way from `s₀`
to `s`. Not every local is `known`. -/
def Behind (known : Nat → Prop) (s₀ t₀ s t : State) : Prop :=
  (∃ id, ¬ known id) ∧ ∃ ds,
    s₀.journal.diagnostics.toList ++ ds <+: s.journal.diagnostics.toList ∧
    t.journal.diagnostics.toList = t₀.journal.diagnostics.toList ++ ds

variable {known : Nat → Prop} {p q : Path} {s₀ t₀ s t s' t' : State}

/-- Nothing was reported yet on either way. -/
theorem Shadows.follows (h : Shadows known p q s t) : Follows known p q s t s t :=
  ⟨h, [], by simp, by simp⟩

private theorem Shadows.part (h : Shadows known p q s t) (route : Path) :
    Shadows known (p ++ route) (q ++ route) s t := by
  refine ⟨h.sub, h.same, fun rest demand => ?_⟩
  rw [List.append_assoc, List.append_assoc]
  exact h.memo (route ++ rest) demand

/-- States that shadow each other below a part after it was visited, and did so before as a whole,
do so as a whole. -/
theorem Shadows.whole {route : Path} (h : Shadows known p q s t)
    (h' : Shadows known (p ++ route) (q ++ route) s' t') (hs : SameOutside (p ++ route) s s')
    (ht : SameOutside (q ++ route) t t') : Shadows known p q s' t' := by
  refine ⟨h'.sub, h'.same, fun rest demand => ?_⟩
  by_cases hr : route <+: rest
  · obtain ⟨rest, rfl⟩ := hr
    rw [← List.append_assoc, ← List.append_assoc]
    exact h'.memo rest demand
  · rw [hs _ demand fun hp => hr ((List.prefix_append_right_inj p).mp hp),
      ht _ demand fun hq => hr ((List.prefix_append_right_inj q).mp hq)]
    exact h.memo rest demand

private theorem Follows.visited (h : Follows known p q s₀ t₀ s t) {path path' : Path}
    (demand : Demand) (quiet recalled : Bool) :
    Follows known p q s₀ t₀ (s.note (.visited path demand quiet recalled))
      (t.note (.visited path' demand quiet recalled)) := by
  refine ⟨⟨h.sub, h.same, h.memo⟩, ?_⟩
  simpa only [note, Journal.diagnostics_push, Event.diagnostic?, Option.toList_none,
    List.append_nil] using h.reports

private theorem Follows.note (h : Follows known p q s₀ t₀ s t) (event : Event) :
    Follows known p q s₀ t₀ (s.note event) (t.note event) := by
  obtain ⟨ds, hs, ht⟩ := h.reports
  refine ⟨⟨h.sub, h.same, h.memo⟩, ds ++ event.diagnostic?.toList, ?_, ?_⟩
  · simp only [State.note, Journal.diagnostics_push, hs, List.append_assoc]
  · simp only [State.note, Journal.diagnostics_push, ht, List.append_assoc]

private theorem Follows.tell (h : Follows known p q s₀ t₀ s t) (mood : Mood) (event : Event) :
    Follows known p q s₀ t₀ (s.tell mood event) (t.tell mood event) := by
  unfold State.tell
  split
  · exact h
  · exact h.note event

private theorem Follows.declare (h : Follows known p q s₀ t₀ s t) (var : Local)
    (lifetime : Lifetime) :
    Follows known p q s₀ t₀ (s.declare var lifetime) (t.declare var lifetime) := by
  refine ⟨⟨fun id found hf => ?_, fun id hid => ?_, h.memo⟩, (h.note _).reports⟩
  · simp only [State.declare, State.note, Lifetimes.get?_insert] at hf ⊢
    split
    · next he => rwa [if_pos he] at hf
    · next he =>
      rw [if_neg he] at hf
      exact h.sub id found hf
  · simp only [State.declare, State.note, Lifetimes.get?_insert, h.same id hid]

private theorem Follows.remember (h : Follows known p q s₀ t₀ s t) (demand : Demand)
    (reading : Reading) :
    Follows known p q s₀ t₀ (s.remember p demand reading) (t.remember q demand reading) := by
  refine ⟨⟨h.sub, h.same, fun route asked => ?_⟩, h.reports⟩
  have hp : (p ++ route, asked) = (p, demand) ↔ (q ++ route, asked) = (q, demand) := by
    simp
  simp only [State.remember, Memo.get?_insert, hp, h.memo route asked]

/-- What more is reported on the first way leaves the second behind. -/
theorem Behind.grows (h : Behind known s₀ t₀ s t) (hs : s.Grows s') : Behind known s₀ t₀ s' t := by
  obtain ⟨hk, ds, hd, ht⟩ := h
  exact ⟨hk, ds, hd.trans hs.diagnostics, ht⟩

private theorem Follows.behind (h : Follows known p q s₀ t₀ s t) {id : Nat} (hid : ¬ known id)
    (hs : s.Grows s') : Behind known s₀ t₀ s' t := by
  obtain ⟨ds, hd, ht⟩ := h.reports
  refine ⟨⟨id, hid⟩, ds, ?_, ht⟩
  rw [← hd]
  exact hs.diagnostics

end State

/-- If the first walk succeeds, then the second one has the same answer in a state related by `R`,
or it fails in a state related by `B`. -/
inductive Ending.Followed {α : Type} (R B : State → State → Prop) : Ending α → Ending α → Prop
  | ok {a : α} {s t : State} (h : R s t) : Followed R B (.ok a s) (.ok a t)
  | behind {a : α} {s t : State} {cause : Failure} (h : B s t) :
      Followed R B (.ok a s) (.error cause t)
  | failed {cause : Failure} {s : State} {r : Ending α} : Followed R B (.error cause s) r

namespace Ending.Followed

variable {α β : Type} {R R' B : State → State → Prop} {r r' : Ending α}
  {f g : α → State → Ending β}

private theorem andThen (h : Followed R B r r')
    (hok : ∀ a s t, R s t → Followed R' B (f a s) (g a t))
    (hbehind : ∀ a s t, B s t → B (Ending.state (f a s)) t) :
    Followed R' B (r.andThen f) (r'.andThen g) := by
  cases h with
  | ok h => exact hok _ _ _ h
  | @behind a s t cause h =>
    have hb := hbehind a s t h
    change Followed R' B (f a s) (.error cause t)
    generalize f a s = x at hb
    cases x with
    | ok b s' => exact .behind hb
    | error e s' => exact .failed
  | failed => exact .failed

/-- A walk that fails behind one that goes on is behind it to the end. -/
theorem of_behind {cause : Failure} {t : State} (h : B (Ending.state r) t) :
    Followed R B r (.error cause t) := by
  cases r with
  | ok a s => exact .behind h
  | error e s => exact .failed

end Ending.Followed

open Ending (Followed)

/-- A tour at another place follows, if the visits of its parts do. -/
theorem Plan.Tours.run_followed {α : Type} {visit visit' : Visitor} {mood : Mood}
    {known : Nat → Prop} {p q : Path} {s₀ t₀ : State} {inside : Node → List Nat}
    (hv : ∀ part : Part, (∀ id ∈ inside part.node, known id) → ∀ demand inner s t,
      State.Follows known p q s₀ t₀ s t →
      Followed (State.Follows known p q s₀ t₀) (State.Behind known s₀ t₀)
        (visit part.route part.node demand inner s) (visit' part.route part.node demand inner t))
    (hg : ∀ route node demand inner s,
      State.Grows s (Ending.state (visit route node demand inner s)))
    {whole : Demand} {hazard : Prop} {Q : α → Prop} {seen : List Answer} {todo : List Stop}
    {plan : Plan α} (h : Tours whole hazard Q seen todo plan)
    (hseen : ∀ x ∈ seen, ∀ id ∈ inside x.part.node, known id)
    (htodo : ∀ id ∈ Stop.ids inside todo, known id) {s t : State}
    (hf : State.Follows known p q s₀ t₀ s t) :
    Followed (State.Follows known p q s₀ t₀) (State.Behind known s₀ t₀)
      (plan.run visit mood s) (plan.run visit' mood t) := by
  have hgrows (rest : Plan α) (s : State) : s.Grows (Ending.state (rest.run visit mood s)) :=
    State.persistent_grows.run mood hg rest s
  induction h generalizing s t with
  | done h => exact .ok hf
  | fail hz => exact .failed
  | @first seen todo part demand inner next hq ha hn ih =>
    have hmem := List.forall_mem_append.mp htodo
    rw [run_visit, run_visit]
    apply (hv part hmem.1 demand (inner.within mood) s t hf).andThen
    · intro scope s' t' hf'
      exact ih scope (List.forall_mem_cons.mpr ⟨hmem.1, hseen⟩) hmem.2 hf'
    · intro scope s' t' hb
      exact hb.grows (hgrows (next scope) s')
  | @again seen todo part demand inner next hq hx hp hd hn ih =>
    obtain ⟨x, hx, rfl⟩ := hx
    rw [run_visit, run_visit]
    apply (hv x.part (hseen x hx) demand (inner.within mood) s t hf).andThen
    · intro scope s' t' hf'
      exact ih scope hseen htodo hf'
    · intro scope s' t' hb
      exact hb.grows (hgrows (next scope) s')
  | declare hz hn ih =>
    have hmem := List.forall_mem_cons.mp htodo
    exact ih hseen hmem.2 (hf.declare _ _)
  | @designate seen todo var lifetime next h hn ih =>
    -- A local that is declared here is on record in both states or in neither.
    have hmem := List.forall_mem_cons.mp htodo
    rw [run_lookup, run_lookup, hf.same var.id hmem.1]
    cases s.lifetimes.get? var.id with
    | none =>
      rw [h]
      exact ih lifetime hseen hmem.2 (hf.declare var lifetime)
    | some found => exact ih found hseen hmem.2 hf
  | @lookup seen todo id cause next hz h hn ih =>
    rw [run_lookup, run_lookup]
    cases ht : t.lifetimes.get? id with
    | some found =>
      rw [hf.sub id found ht]
      exact ih found hseen htodo hf
    | none =>
      rw [h]
      cases hs : s.lifetimes.get? id with
      | none =>
        rw [h]
        exact .failed
      | some found =>
        have hid : ¬ known id := by
          intro hk
          rw [hf.same id hk, hs] at ht
          cases ht
        exact .of_behind (hf.behind hid (hgrows _ s))
  | report hn ih => exact ih hseen htodo (hf.tell mood _)
  | hint hn ih => exact ih hseen htodo (hf.tell mood _)

namespace Walker

variable (w : Walker)

private theorem visit_followed_of_compute {levels levels' : Nat} {mood : Mood} {p q : Path}
    {node : Node} {demand : Demand} {known : Nat → Prop} {s₀ t₀ s t : State}
    (hc : ∀ s t, State.Follows known p q s₀ t₀ s t →
      Followed (State.Follows known p q s₀ t₀) (State.Behind known s₀ t₀)
        (w.compute levels mood p node demand s) (w.compute levels' mood q node demand t))
    (hf : State.Follows known p q s₀ t₀ s t) :
    Followed (State.Follows known p q s₀ t₀) (State.Behind known s₀ t₀)
      (w.visit levels mood p node demand s) (w.visit levels' mood q node demand t) := by
  cases node with
  | stmt st =>
    rw [visit_stmt, visit_stmt]
    exact hc s t hf
  | expr e =>
    have hr : w.remembered t q demand mood.quiet = w.remembered s p demand mood.quiet := by
      have hm := hf.memo [] demand
      rw [List.append_nil, List.append_nil] at hm
      simp only [remembered, Memo.answer?, hm]
    cases hm : w.remembered s p demand mood.quiet with
    | some scope =>
      rw [visit_recalled w hm, visit_recalled w (hr.trans hm)]
      exact .ok (hf.visited demand mood.quiet true)
    | none =>
      rw [visit_computed w hm, visit_computed w (hr.trans hm)]
      apply (hc _ _ (hf.visited demand mood.quiet false)).andThen
      · intro scope s' t' hf'
        exact .ok (hf'.remember demand _)
      · exact fun _ _ _ hb => hb

/-- The visit of a node at another place, with at least as many levels to go and from a state that
has less on record, follows the visit at the first place. -/
theorem visit_followed (levels more : Nat) (mood : Mood) (p q : Path) (node : Node)
    (demand : Demand) {known : Nat → Prop} (hknown : ∀ id ∈ node.ids w.setting levels, known id)
    {s₀ t₀ s t : State} (hf : State.Follows known p q s₀ t₀ s t) :
    Followed (State.Follows known p q s₀ t₀) (State.Behind known s₀ t₀)
      (w.visit levels mood p node demand s) (w.visit (levels + more) mood q node demand t) := by
  induction levels generalizing mood p q node demand s t with
  | zero =>
    apply w.visit_followed_of_compute _ hf
    exact fun _ _ _ => .failed
  | succ levels ih =>
    apply w.visit_followed_of_compute _ hf
    intro s₁ t₁ hf₁
    rw [Nat.succ_add, compute_succ, compute_succ]
    refine (Rule.node_tours w.setting node demand).run_followed ?_ ?_ (by simp) hknown hf₁
    · intro part hp asked inner s₂ t₂ hf₂
      have hs := w.visit_sameOutside levels inner (p ++ part.route) part.node asked s₂
      have ht := w.visit_sameOutside (levels + more) inner (q ++ part.route) part.node asked t₂
      have hpart := ih inner (p ++ part.route) (q ++ part.route) part.node asked hp
        ⟨hf₂.toShadows.part part.route, hf₂.reports⟩
      generalize w.visit levels inner (p ++ part.route) part.node asked s₂ = r at hs hpart
      generalize w.visit (levels + more) inner (q ++ part.route) part.node asked t₂ = r' at ht hpart
      cases hpart with
      | ok h => exact .ok ⟨hf₂.toShadows.whole h.toShadows hs ht, h.reports⟩
      | behind h => exact .behind h
      | failed => exact .failed
    · intro route part asked inner s₂
      exact w.visit_grows levels inner (p ++ route) part asked s₂

end Walker

end RefLifetime
