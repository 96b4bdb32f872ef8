import RefLifetime.Analysis
import RefLifetime.Proofs.Apart

/-!
# Runs of plans and visits

A run is followed one request at a time. Two runs are compared through their endings: results that
belong together, or one and the same failure. A visit depends on the lifetimes recorded so far and
on what is remembered at or below its node, and it leaves all other memory alone.
-/

namespace RefLifetime

/-- What meets the requests of a plan for parts of its node. -/
abbrev Visitor := Path → Node → Demand → Mood → Walk Scope

/-- How a walk ended, and in which state. -/
abbrev Ending (α : Type) := EStateM.Result Failure State α

namespace Ending

variable {α β γ δ : Type}

/-- Goes on after a success; a failure stays what it is. -/
def andThen (r : Ending α) (f : α → State → Ending β) : Ending β :=
  match r with
  | .ok a s => f a s
  | .error e s => .error e s

/-- The state in which a walk ended. -/
def state : Ending α → State
  | .ok _ s | .error _ s => s

/-- What a walk came to, whatever it left behind. -/
def result : Ending α → Except Failure α
  | .ok a _ => .ok a
  | .error e _ => .error e

/-- The ending satisfies `ok` if it is a success, and `bad` if it is a failure. -/
inductive Meets (ok : α → State → Prop) (bad : State → Prop) : Ending α → Prop
  | ok {a : α} {s : State} (h : ok a s) : Meets ok bad (.ok a s)
  | error {e : Failure} {s : State} (h : bad s) : Meets ok bad (.error e s)

/-- Two successes related by `ok`, or the same failure in states related by `bad`. -/
inductive Alike (ok : α → State → β → State → Prop) (bad : State → State → Prop) :
    Ending α → Ending β → Prop
  | ok {a : α} {s : State} {b : β} {t : State} (h : ok a s b t) : Alike ok bad (.ok a s) (.ok b t)
  | error {e : Failure} {s t : State} (h : bad s t) : Alike ok bad (.error e s) (.error e t)

/-- Continuations of endings that meet a condition. -/
theorem Meets.andThen {ok : α → State → Prop} {ok' : β → State → Prop} {bad bad' : State → Prop}
    {r : Ending α} {f : α → State → Ending β} (h : Meets ok bad r)
    (hok : ∀ a s, ok a s → Meets ok' bad' (f a s)) (hbad : ∀ s, bad s → bad' s) :
    Meets ok' bad' (r.andThen f) := by
  cases h with
  | ok h => exact hok _ _ h
  | error h => exact .error (hbad _ h)

/-- A weaker condition is met as well. -/
theorem Meets.imp {ok ok' : α → State → Prop} {bad bad' : State → Prop} {r : Ending α}
    (h : Meets ok bad r) (hok : ∀ a s, ok a s → ok' a s) (hbad : ∀ s, bad s → bad' s) :
    Meets ok' bad' r := by
  cases h with
  | ok h => exact .ok (hok _ _ h)
  | error h => exact .error (hbad _ h)

/-- What holds of the state after a success and after a failure holds in any case. -/
theorem Meets.state {ok : α → State → Prop} {bad P : State → Prop} {r : Ending α}
    (h : Meets ok bad r) (hok : ∀ a s, ok a s → P s) (hbad : ∀ s, bad s → P s) :
    P (Ending.state r) := by
  cases h with
  | ok h => exact hok _ _ h
  | error h => exact hbad _ h

/-- What holds of the state in any case holds after a success and after a failure. -/
theorem Meets.of_state {P : State → Prop} {r : Ending α} (h : P (Ending.state r)) :
    Meets (fun _ => P) P r := by
  cases r with
  | ok a s => exact .ok h
  | error e s => exact .error h

/-- Continuations of endings that are alike. -/
theorem Alike.andThen {ok : α → State → β → State → Prop} {ok' : γ → State → δ → State → Prop}
    {bad bad' : State → State → Prop} {r : Ending α} {r' : Ending β} {f : α → State → Ending γ}
    {g : β → State → Ending δ} (h : Alike ok bad r r')
    (hok : ∀ a s b t, ok a s b t → Alike ok' bad' (f a s) (g b t))
    (hbad : ∀ s t, bad s t → bad' s t) : Alike ok' bad' (r.andThen f) (r'.andThen g) := by
  cases h with
  | ok h => exact hok _ _ _ _ h
  | error h => exact .error (hbad _ _ h)

/-- What is known of the first ending's state can be used. -/
theorem Alike.and_state {ok : α → State → β → State → Prop} {bad : State → State → Prop}
    {r : Ending α} {r' : Ending β} {P : State → Prop} (h : Alike ok bad r r') (hr : P (state r)) :
    Alike (fun a s b t => P s ∧ ok a s b t) bad r r' := by
  cases h with
  | ok h => exact .ok ⟨hr, h⟩
  | error h => exact .error h

/-- Endings stay alike under weaker relations. -/
theorem Alike.imp {ok ok' : α → State → β → State → Prop} {bad bad' : State → State → Prop}
    {r : Ending α} {r' : Ending β} (h : Alike ok bad r r')
    (hok : ∀ a s b t, ok a s b t → ok' a s b t) (hbad : ∀ s t, bad s t → bad' s t) :
    Alike ok' bad' r r' := by
  cases h with
  | ok h => exact .ok (hok _ _ _ _ h)
  | error h => exact .error (hbad _ _ h)

end Ending

/-! ### One request at a time -/

namespace Walk

variable {α β : Type}

/-- A walk goes on from the state in which the one before it ended. -/
theorem bind_apply (x : Walk α) (f : α → Walk β) (s : State) :
    (x >>= f) s = Ending.andThen (x s) f := by
  have h (r : Ending α) : EStateM.bind (fun _ => r) f s = r.andThen f := by
    cases r <;> rfl
  exact h (x s)

private theorem get_bind (f : State → Walk α) (s : State) : (get >>= f) s = f s s := rfl

private theorem modify_bind (change : State → State) (f : PUnit → Walk α) (s : State) :
    (modify change >>= f) s = f ⟨⟩ (change s) := rfl

end Walk

namespace Plan

variable {α β : Type} (visit : Visitor) (mood : Mood) (s : State)

/-- A plan goes on with the answer of its visit, and not at all if the visit fails. -/
theorem run_visit (route : Path) (node : Node) (demand : Demand) (inner : Mood)
    (next : Scope → Plan α) :
    (Plan.visit route node demand inner next).run visit mood s =
      Ending.andThen (visit route node demand (inner.within mood) s)
        fun a s' => (next a).run visit mood s' :=
  Walk.bind_apply _ _ s

/-- A plan goes on with what is on record of the local. -/
theorem run_lookup (id : Nat) (next : Option Lifetime → Plan α) :
    (lookup id next).run visit mood s = (next (s.lifetimes.get? id)).run visit mood s := rfl

/-- A plan goes on after its report, which has the form of the region. -/
theorem run_report (finding : Finding) (next : Plan α) :
    (report finding next).run visit mood s =
      next.run visit mood (s.tell mood (.reported (finding.inRegion mood.region))) := rfl

/-- A plan goes on after its hint. -/
theorem run_hint (id : Nat) (next : Plan α) :
    (hint id next).run visit mood s = next.run visit mood (s.tell mood (.hinted id)) := rfl

end Plan

namespace Walker

variable (w : Walker)

/-- The part of a visit that is left out when its answer is remembered. -/
def compute (levels : Nat) (mood : Mood) (path : Path) (node : Node) (demand : Demand) :
    Walk Scope :=
  match levels with
  | 0 => throw (.depthExceeded w.limit (node.span w.setting.method.span))
  | levels + 1 =>
    (Rule.node w.setting node demand).run
      (fun route part asked inner => w.visit levels inner (path ++ route) part asked) mood

/-- Carries out a plan for the node at `path`, or for a clause of it; its parts have `levels` more
levels of nesting to go. -/
def carryOut {α : Type} (levels : Nat) (mood : Mood) (path : Path) (plan : Plan α) : Walk α :=
  plan.run (fun route part asked inner => w.visit levels inner (path ++ route) part asked) mood

/-- What a visitor may find remembered. -/
def remembered (s : State) (path : Path) (demand : Demand) (quiet : Bool) : Option Scope :=
  if w.memoizes then s.memo.answer? path demand quiet else none

/-- What is recalled was remembered, and not quietly if it answers a reporting visit. -/
theorem remembered_eq_some {s : State} {path : Path} {demand : Demand} {quiet : Bool}
    {scope : Scope} (h : w.remembered s path demand quiet = some scope) :
    w.memoizes = true ∧ ∃ reading, s.memo.get? path demand = some reading ∧
      reading.scope = scope ∧ (quiet || !reading.quiet) = true := by
  unfold remembered at h
  split at h
  · next hm =>
    unfold Memo.answer? at h
    split at h
    · cases h
    · next reading hr =>
      split at h
      · next hq => exact ⟨hm, reading, hr, Option.some.inj h, hq⟩
      · cases h
  · cases h

/-- A computation without levels left fails. -/
theorem compute_zero (mood : Mood) (path : Path) (node : Node) (demand : Demand) (s : State) :
    w.compute 0 mood path node demand s =
      .error (.depthExceeded w.limit (node.span w.setting.method.span)) s := rfl

/-- With levels left, the rule of the node is carried out one level below. -/
theorem compute_succ (levels : Nat) (mood : Mood) (path : Path) (node : Node) (demand : Demand) :
    w.compute (levels + 1) mood path node demand =
      (Rule.node w.setting node demand).run
        (fun route part asked inner => w.visit levels inner (path ++ route) part asked) mood := rfl

/-- A statement is not remembered. -/
theorem visit_stmt (levels : Nat) (mood : Mood) (path : Path) (st : Stmt) (demand : Demand)
    (s : State) :
    w.visit levels mood path (.stmt st) demand s =
      w.compute levels mood path (.stmt st) demand s := by
  cases levels <;> rfl

/-- An expression that is remembered is not looked into. -/
theorem visit_recalled {levels : Nat} {mood : Mood} {path : Path} {e : Expr} {demand : Demand}
    {s : State} {scope : Scope} (h : w.remembered s path demand mood.quiet = some scope) :
    w.visit levels mood path (.expr e) demand s =
      .ok scope (s.note (.visited path demand mood.quiet true)) := by
  have hv : w.visit levels mood path (.expr e) demand =
      w.remembering mood path (.expr e) demand (w.compute levels mood path (.expr e) demand) := by
    cases levels <;> rfl
  unfold remembered at h
  rw [hv, remembering, Walk.get_bind, h]
  rfl

/-- An expression that is not remembered is computed, and remembered if that succeeds. -/
theorem visit_computed {levels : Nat} {mood : Mood} {path : Path} {e : Expr} {demand : Demand}
    {s : State} (h : w.remembered s path demand mood.quiet = none) :
    w.visit levels mood path (.expr e) demand s =
      Ending.andThen (w.compute levels mood path (.expr e) demand
        (s.note (.visited path demand mood.quiet false)))
        fun scope s' => .ok scope (s'.remember path demand ⟨scope, mood.quiet⟩) := by
  have hv : w.visit levels mood path (.expr e) demand =
      w.remembering mood path (.expr e) demand (w.compute levels mood path (.expr e) demand) := by
    cases levels <;> rfl
  unfold remembered at h
  rw [hv, remembering, Walk.get_bind, h]
  dsimp only
  rw [Walk.modify_bind, Walk.bind_apply]
  rfl

end Walker

/-! ### What every step of a run keeps -/

/-- A relation between an earlier and a later state that single steps respect. -/
structure Persistent (R : State → State → Prop) : Prop where
  refl : ∀ s, R s s
  trans : ∀ {s t u}, R s t → R t u → R s u
  note : ∀ s event, R s (s.note event)
  declare : ∀ s var lifetime, R s (s.declare var lifetime)

namespace Persistent

variable {R : State → State → Prop}

/-- Telling is noting, or nothing. -/
theorem tell (h : Persistent R) (s : State) (mood : Mood) (event : Event) :
    R s (s.tell mood event) := by
  unfold State.tell
  split
  · exact h.refl s
  · exact h.note s event

/-- What a walk and all that may follow it respect, both together do. -/
theorem andThen {α β : Type} (h : Persistent R) {s : State} {r : Ending α}
    {f : α → State → Ending β} (hr : R s (Ending.state r))
    (hf : ∀ a s', R s' (Ending.state (f a s'))) : R s (Ending.state (r.andThen f)) := by
  cases r with
  | ok a s' => exact h.trans hr (hf a s')
  | error e s' => exact hr

/-- What visits and single steps respect, a whole run does. -/
theorem run {α : Type} (h : Persistent R) {visit : Visitor} (mood : Mood)
    (hv : ∀ route node demand inner s, R s (Ending.state (visit route node demand inner s)))
    (p : Plan α) (s : State) : R s (Ending.state (p.run visit mood s)) := by
  induction p generalizing s with
  | done a => exact h.refl s
  | fail cause => exact h.refl s
  | visit route node demand inner next ih =>
    rw [Plan.run_visit]
    exact h.andThen (hv route node demand (inner.within mood) s) ih
  | lookup id next ih => exact ih _ s
  | declare var lifetime next ih => exact h.trans (h.declare s var lifetime) (ih _)
  | report finding next ih => exact h.trans (h.tell s mood _) (ih _)
  | hint id next ih => exact h.trans (h.tell s mood _) (ih _)

end Persistent

/-- The diagnostics among some events. -/
def Event.diagnostics (events : List Event) : List Diagnostic := events.filterMap Event.diagnostic?

namespace State

/-- Only what is remembered at `path` or below it has changed. -/
def SameOutside (path : Path) (s t : State) : Prop :=
  ∀ q demand, ¬ path <+: q → t.memo.get? q demand = s.memo.get? q demand

/-- Nothing is remembered at `path` or below it. -/
def Fresh (path : Path) (s : State) : Prop :=
  ∀ q demand, path <+: q → s.memo.get? q demand = none

/-- The later journal is the earlier one with `events` at its end. -/
def Extends (s : State) (events : List Event) (t : State) : Prop :=
  t.journal.events.toList = s.journal.events.toList ++ events

/-- Nothing has happened yet. -/
theorem Extends.refl (s : State) : s.Extends [] s := by simp [Extends]

/-- What happens on two stretches of a walk happens one after the other. -/
theorem Extends.trans {s t u : State} {first second : List Event} (h : s.Extends first t)
    (h' : t.Extends second u) : s.Extends (first ++ second) u := by
  simp only [Extends] at h h' ⊢
  rw [h', h, List.append_assoc]

/-- Later events add their diagnostics at the end. -/
theorem Extends.diagnostics {s t : State} {events : List Event} (h : s.Extends events t) :
    t.journal.diagnostics.toList = s.journal.diagnostics.toList ++ Event.diagnostics events := by
  rw [Extends] at h
  simp only [Journal.diagnostics, h, List.filterMap_append, Event.diagnostics]

/-- Later events add their hints at the end. -/
theorem Extends.hints {s t : State} {events : List Event} (h : s.Extends events t) :
    t.journal.hints = s.journal.hints ++ events.filterMap Event.hint? := by
  rw [Extends] at h
  simp only [Journal.hints, h, List.filterMap_append]

/-- An entry is one event. -/
theorem extends_note (s : State) (event : Event) : s.Extends [event] (s.note event) := by
  simp [Extends, note, Journal.push]

/-- A declaration is one event. -/
theorem extends_declare (s : State) (var : Local) (lifetime : Lifetime) :
    s.Extends [.declared var.name lifetime] (s.declare var lifetime) :=
  extends_note s _

/-- To tell something is one event, or none in a quiet mood. -/
theorem extends_tell (s : State) (mood : Mood) (event : Event) :
    s.Extends (if mood.quiet then [] else [event]) (s.tell mood event) := by
  unfold tell
  split
  · exact Extends.refl s
  · exact extends_note s event

/-- The journal of the later state continues that of the earlier one. -/
def Grows (s t : State) : Prop := ∃ events, s.Extends events t

/-- Every step continues the journal. -/
theorem persistent_grows : Persistent Grows where
  refl s := ⟨[], .refl s⟩
  trans h h' := by
    obtain ⟨_, h⟩ := h
    obtain ⟨_, h'⟩ := h'
    exact ⟨_, h.trans h'⟩
  note s event := ⟨_, s.extends_note event⟩
  declare s var lifetime := ⟨_, s.extends_declare var lifetime⟩

/-- What was reported before is reported first. -/
theorem Grows.diagnostics {s t : State} (h : s.Grows t) :
    s.journal.diagnostics.toList <+: t.journal.diagnostics.toList := by
  obtain ⟨events, h⟩ := h
  exact ⟨_, h.diagnostics.symm⟩

/-- Hints are added at the end. -/
theorem Grows.hints {s t : State} (h : s.Grows t) : s.journal.hints <+: t.journal.hints := by
  obtain ⟨events, h⟩ := h
  exact ⟨_, h.hints.symm⟩

/-- To tell something changes nothing in memory. -/
theorem memo_tell (s : State) (mood : Mood) (event : Event) :
    (s.tell mood event).memo = s.memo := by
  unfold tell
  split <;> rfl

private theorem persistent_sameOutside (path : Path) : Persistent (SameOutside path) where
  refl _ _ _ _ := rfl
  trans h h' q demand hq := (h' q demand hq).trans (h q demand hq)
  note _ _ _ _ _ := rfl
  declare _ _ _ _ _ _ := rfl

/-- A change below a part is a change below the whole. -/
theorem SameOutside.of_append {path route : Path} {s t : State}
    (h : SameOutside (path ++ route) s t) : SameOutside path s t := by
  intro q demand hq
  exact h q demand fun hp => hq ((List.prefix_append path route).trans hp)

/-- Remembering a scope changes what is remembered at its place. -/
theorem sameOutside_remember (s : State) (path : Path) (demand : Demand) (reading : Reading) :
    SameOutside path s (s.remember path demand reading) := by
  intro q asked hq
  have hne : ¬ (q, asked) = (path, demand) := by
    rintro ⟨rfl, rfl⟩
    exact hq (List.prefix_refl _)
  simp only [remember, Memo.get?_insert, hne, if_false]

/-- Whether anything is remembered depends on memory only. -/
theorem Fresh.of_memo {path : Path} {s s' : State} (h : Fresh path s) (hm : s'.memo = s.memo) :
    Fresh path s' := by
  intro q demand hq
  rw [hm]
  exact h q demand hq

/-- Where nothing was remembered, nothing is after a change elsewhere. -/
theorem Fresh.of_sameOutside {path q : Path} {s s' : State} (h : Fresh q s)
    (hs : SameOutside path s s') (hq : path.Apart q) : Fresh q s' := by
  intro r demand hr
  rw [hs r demand fun hp => hq.excludes hp hr]
  exact h r demand hr

end State

namespace Walker

variable (w : Walker)

/-- Where nothing is remembered, nothing is recalled. -/
theorem remembered_fresh {path : Path} {s : State} (h : s.Fresh path) (demand : Demand)
    (quiet : Bool) : w.remembered s path demand quiet = none := by
  simp [remembered, Memo.answer?, h path demand (List.prefix_refl path)]

/-- A visit meets what its answers from memory meet and what the computation meets, if remembering
the answer makes no difference. A statement is computed as it stands, an expression after the visit
has been noted. -/
theorem visit_meets {ok : Scope → State → Prop} {bad : State → Prop} {levels : Nat} {mood : Mood}
    {path : Path} {node : Node} {demand : Demand} {s : State}
    (hrecalled : ∀ scope, w.remembered s path demand mood.quiet = some scope →
      ok scope (s.note (.visited path demand mood.quiet true)))
    (hcomputed : ∀ t, t = s ∨ t = s.note (.visited path demand mood.quiet false) →
      Ending.Meets ok bad (w.compute levels mood path node demand t))
    (hremember : (∃ e, node = .expr e) → ∀ scope t, ok scope t →
      ok scope (t.remember path demand ⟨scope, mood.quiet⟩)) :
    Ending.Meets ok bad (w.visit levels mood path node demand s) := by
  cases node with
  | stmt st =>
    rw [visit_stmt]
    exact hcomputed s (.inl rfl)
  | expr e =>
    cases hm : w.remembered s path demand mood.quiet with
    | some scope =>
      rw [visit_recalled w hm]
      exact .ok (hrecalled scope hm)
    | none =>
      rw [visit_computed w hm]
      refine (hcomputed _ (.inr rfl)).andThen ?_ fun _ h => h
      intro scope t h
      exact .ok (hremember ⟨e, rfl⟩ scope t h)

/-- What the computation of an answer respects, the visit does, if remembering respects it. -/
theorem visit_persists {R : State → State → Prop} (h : Persistent R) {levels : Nat} {mood : Mood}
    {path : Path} {node : Node} {demand : Demand}
    (hr : ∀ s reading, R s (s.remember path demand reading))
    (hc : ∀ s, R s (Ending.state (w.compute levels mood path node demand s))) (s : State) :
    R s (Ending.state (w.visit levels mood path node demand s)) := by
  have hmeets : Ending.Meets (fun _ => R s) (R s) (w.visit levels mood path node demand s) := by
    refine w.visit_meets (fun _ _ => h.note s _) ?_ fun _ scope t ht => h.trans ht (hr t _)
    intro t ht
    apply Ending.Meets.of_state
    rcases ht with rfl | rfl
    · exact hc _
    · exact h.trans (h.note s _) (hc _)
  exact hmeets.state (fun _ _ h => h) fun _ h => h

/-- What single steps and remembering respect, a visit does. -/
theorem visit_respects {R : State → State → Prop} (hR : Persistent R)
    (hr : ∀ s path demand reading, R s (State.remember s path demand reading)) (levels : Nat)
    (mood : Mood) (path : Path) (node : Node) (demand : Demand) (s : State) :
    R s (Ending.state (w.visit levels mood path node demand s)) := by
  induction levels generalizing mood path node demand s with
  | zero =>
    refine w.visit_persists hR (fun s => hr s path demand) (fun s => ?_) s
    exact hR.refl s
  | succ levels ih =>
    refine w.visit_persists hR (fun s => hr s path demand) (fun s => ?_) s
    exact hR.run mood (fun route part asked inner s => ih inner (path ++ route) part asked s) _ s

/-- A visit adds to the journal and takes nothing from it, also when it fails. -/
theorem visit_grows (levels : Nat) (mood : Mood) (path : Path) (node : Node) (demand : Demand)
    (s : State) : s.Grows (Ending.state (w.visit levels mood path node demand s)) :=
  w.visit_respects State.persistent_grows (fun s _ _ _ => ⟨[], .refl s⟩) levels mood path node
    demand s

/-- A visit leaves what is remembered elsewhere as it was, also when it fails. -/
theorem visit_sameOutside (levels : Nat) (mood : Mood) (path : Path) (node : Node)
    (demand : Demand) (s : State) :
    s.SameOutside path (Ending.state (w.visit levels mood path node demand s)) := by
  have hp := State.persistent_sameOutside path
  induction levels generalizing mood path node demand s with
  | zero =>
    refine w.visit_persists hp (fun s _ => s.sameOutside_remember path demand _) ?_ s
    intro s
    rw [compute_zero]
    exact hp.refl s
  | succ levels ih =>
    refine w.visit_persists hp (fun s _ => s.sameOutside_remember path demand _) ?_ s
    intro s
    rw [compute_succ]
    refine hp.run mood (fun route part asked inner s => ?_) _ s
    exact (ih inner _ part asked s (State.persistent_sameOutside _)).of_append

/-- What holds before the signature is looked at, and after every warning about it, holds when the
walk of a body begins. -/
theorem initial_induction {P : State → Prop}
    (hstart : P (State.note {} (.started w.setting.method.name w.setting.rules)))
    (hstep : ∀ d ∈ w.setting.method.captureWarnings w.setting.rules, ∀ s, P s →
      P (s.note (.reported d))) : P w.initial := by
  have hfold (ds : List Diagnostic) (s : State) (hs : P s)
      (hds : ∀ d ∈ ds, ∀ s, P s → P (s.note (.reported d))) :
      P (ds.foldl (fun s d => s.note (.reported d)) s) := by
    induction ds generalizing s with
    | nil => exact hs
    | cons d ds ih =>
      exact ih _ (hds d List.mem_cons_self s hs) fun d' hd => hds d' (List.mem_cons_of_mem _ hd)
  exact hfold _ _ hstart hstep

/-- When the walk of a body begins, no local is declared and nothing is remembered. -/
theorem initial_empty : w.initial.lifetimes = .empty ∧ w.initial.memo = .empty :=
  w.initial_induction (P := fun s => s.lifetimes = .empty ∧ s.memo = .empty) ⟨rfl, rfl⟩
    fun _ _ _ h => h

/-- Nothing is remembered when a walk begins. -/
theorem initial_fresh (path : Path) : w.initial.Fresh path := by
  intro q demand _
  rw [w.initial_empty.2]
  rfl

end Walker

/-! ### Two runs in step -/

/-- Two plans that make the same requests in the same order, except that the nodes and moods of
their visits are related by `V`. -/
inductive Plan.Lockstep {α : Type} (V : Node → Mood → Node → Mood → Prop) : Plan α → Plan α → Prop
  | done (a : α) : Lockstep V (.done a) (.done a)
  | fail (cause : Failure) : Lockstep V (.fail cause) (.fail cause)
  | visit {route : Path} {node node' : Node} {demand : Demand} {inner inner' : Mood}
      {next next' : Scope → Plan α} (h : V node inner node' inner')
      (hn : ∀ scope, Lockstep V (next scope) (next' scope)) :
      Lockstep V (.visit route node demand inner next) (.visit route node' demand inner' next')
  | lookup {id : Nat} {next next' : Option Lifetime → Plan α}
      (hn : ∀ found, Lockstep V (next found) (next' found)) :
      Lockstep V (.lookup id next) (.lookup id next')
  | declare {var : Local} {lifetime : Lifetime} {next next' : Plan α} (hn : Lockstep V next next') :
      Lockstep V (.declare var lifetime next) (.declare var lifetime next')
  | report {finding : Finding} {next next' : Plan α} (hn : Lockstep V next next') :
      Lockstep V (.report finding next) (.report finding next')
  | hint {id : Nat} {next next' : Plan α} (hn : Lockstep V next next') :
      Lockstep V (.hint id next) (.hint id next')

namespace Plan.Lockstep

variable {α β : Type} {V : Node → Mood → Node → Mood → Prop}

/-- Every plan is in step with itself. -/
theorem refl (hV : ∀ node inner, V node inner node inner) (p : Plan α) : Lockstep V p p := by
  induction p with
  | done a => exact .done a
  | fail cause => exact .fail cause
  | visit route node demand inner next ih => exact .visit (hV node inner) ih
  | lookup id next ih => exact .lookup ih
  | declare var lifetime next ih => exact .declare ih
  | report finding next ih => exact .report ih
  | hint id next ih => exact .hint ih

/-- Continuations of plans in step. -/
theorem bind {p q : Plan α} {f g : α → Plan β} (h : Lockstep V p q)
    (hf : ∀ a, Lockstep V (f a) (g a)) : Lockstep V (p >>= f) (q >>= g) := by
  change Lockstep V (p.bind f) (q.bind g)
  induction h with
  | done a => exact hf a
  | fail cause => exact .fail cause
  | visit h _ ih => exact .visit h ih
  | lookup _ ih => exact .lookup ih
  | declare _ ih => exact .declare ih
  | report _ ih => exact .report ih
  | hint _ ih => exact .hint ih

/-- Plans for the members of a list and for their images. -/
theorem forEach {γ : Type} {f : Nat → α → Plan β} {g : Nat → γ → Plan β} (image : α → γ)
    (h : ∀ i a, Lockstep V (f i a) (g i (image a))) (items : List α) (start : Nat) :
    Lockstep V (Plan.forEach f items start) (Plan.forEach g (items.map image) start) := by
  induction items generalizing start with
  | nil => exact .done []
  | cons item rest ih =>
    exact bind (h start item) fun result => bind (ih (start + 1)) fun results => .done _

end Plan.Lockstep

/-- A relation between the states of two runs that matching steps respect. -/
structure Matching (R : State → State → Prop) (mood mood' : Mood) : Prop where
  lookup : ∀ {s t} id, R s t → s.lifetimes.get? id = t.lifetimes.get? id
  declare : ∀ {s t} var lifetime, R s t → R (s.declare var lifetime) (t.declare var lifetime)
  report : ∀ {s t} (finding : Finding), R s t →
    R (s.tell mood (.reported (finding.inRegion mood.region)))
      (t.tell mood' (.reported (finding.inRegion mood'.region)))
  hint : ∀ {s t} id, R s t → R (s.tell mood (.hinted id)) (t.tell mood' (.hinted id))

/-- Plans in step run alike, if their visits do. -/
theorem Plan.Lockstep.run {α : Type} {V : Node → Mood → Node → Mood → Prop}
    {R : State → State → Prop} {mood mood' : Mood} {visit visit' : Visitor}
    (hm : Matching R mood mood')
    (hv : ∀ route node node' demand inner inner' s t, V node inner node' inner' → R s t →
      Ending.Alike (fun a s b t => a = b ∧ R s t) R
        (visit route node demand (inner.within mood) s)
        (visit' route node' demand (inner'.within mood') t))
    {p q : Plan α} (h : Lockstep V p q) {s t : State} (hs : R s t) :
    Ending.Alike (fun a s b t => a = b ∧ R s t) R (p.run visit mood s) (q.run visit' mood' t) := by
  induction h generalizing s t with
  | done a => exact .ok ⟨rfl, hs⟩
  | fail cause => exact .error hs
  | visit h _ ih =>
    rw [run_visit, run_visit]
    refine (hv _ _ _ _ _ _ s t h hs).andThen ?_ fun _ _ h => h
    rintro a s _ t ⟨rfl, hs⟩
    exact ih a hs
  | lookup _ ih =>
    rw [run_lookup, run_lookup, ← hm.lookup _ hs]
    exact ih _ hs
  | declare _ ih => exact ih (hm.declare _ _ hs)
  | report _ ih => exact ih (hm.report _ hs)
  | hint _ ih => exact ih (hm.hint _ hs)

/-! ### Locality -/

namespace State

/-- The same lifetimes are recorded, and the same is remembered at `path` and below. -/
structure Agree (path : Path) (s t : State) : Prop where
  lifetimes : s.lifetimes = t.lifetimes
  memo : ∀ q demand, path <+: q → s.memo.get? q demand = t.memo.get? q demand

/-- The states `s` and `t` agree, and came about from `s₀` and `t₀` by the same events. -/
structure Echo (path : Path) (s₀ t₀ s t : State) : Prop where
  agree : Agree path s t
  events : ∃ events, s₀.Extends events s ∧ t₀.Extends events t

variable {path : Path} {s₀ t₀ s t s' t' : State}

/-- States that agree echo each other before anything has happened. -/
theorem Agree.echo (h : Agree path s t) : Echo path s t s t :=
  ⟨h, [], Extends.refl s, Extends.refl t⟩

private theorem Agree.append (h : Agree path s t) (route : Path) : Agree (path ++ route) s t :=
  ⟨h.lifetimes, fun q demand hq => h.memo q demand ((List.prefix_append path route).trans hq)⟩

/-- States that agree below a part after it was visited, and agreed before, agree as a whole. -/
theorem Agree.whole {route : Path} (h : Agree path s t) (h' : Agree (path ++ route) s' t')
    (hs : SameOutside (path ++ route) s s') (ht : SameOutside (path ++ route) t t') :
    Agree path s' t' := by
  refine ⟨h'.lifetimes, fun q demand hq => ?_⟩
  by_cases hr : path ++ route <+: q
  · exact h'.memo q demand hr
  · rw [hs q demand hr, ht q demand hr]
    exact h.memo q demand hq

/-- States that echo each other do so after the same entry. -/
theorem Echo.note (h : Echo path s₀ t₀ s t) (event : Event) :
    Echo path s₀ t₀ (s.note event) (t.note event) := by
  obtain ⟨events, hs, ht⟩ := h.events
  exact ⟨⟨h.agree.lifetimes, h.agree.memo⟩, events ++ [event], hs.trans (extends_note s event),
    ht.trans (extends_note t event)⟩

private theorem Echo.tell (h : Echo path s₀ t₀ s t) (mood : Mood) (event : Event) :
    Echo path s₀ t₀ (s.tell mood event) (t.tell mood event) := by
  unfold State.tell
  split
  · exact h
  · exact h.note event

private theorem Echo.declare (h : Echo path s₀ t₀ s t) (var : Local) (lifetime : Lifetime) :
    Echo path s₀ t₀ (s.declare var lifetime) (t.declare var lifetime) := by
  obtain ⟨events, hs, ht⟩ := h.events
  refine ⟨⟨?_, h.agree.memo⟩, _, hs.trans (extends_declare s var lifetime),
    ht.trans (extends_declare t var lifetime)⟩
  simp only [State.declare, h.agree.lifetimes]

private theorem Echo.remember (h : Echo path s₀ t₀ s t) (demand : Demand) (reading : Reading) :
    Echo path s₀ t₀ (s.remember path demand reading) (t.remember path demand reading) := by
  obtain ⟨events, hs, ht⟩ := h.events
  refine ⟨⟨h.agree.lifetimes, fun q asked hq => ?_⟩, events, hs, ht⟩
  simp only [State.remember, Memo.get?_insert, h.agree.memo q asked hq]

private theorem Echo.matching (path : Path) (s₀ t₀ : State) (mood : Mood) :
    Matching (Echo path s₀ t₀) mood mood where
  lookup id h := by rw [h.agree.lifetimes]
  declare var lifetime h := h.declare var lifetime
  report _ h := h.tell mood _
  hint _ h := h.tell mood _

end State

namespace Walker

variable (w : Walker)

/-- What a visit recalls is remembered at its own place. -/
theorem remembered_congr {path : Path} {s t : State} (h : s.Agree path t) (demand : Demand)
    (quiet : Bool) : w.remembered s path demand quiet = w.remembered t path demand quiet := by
  simp only [remembered, Memo.answer?, h.memo path demand (List.prefix_refl path)]

private theorem visit_agree_of_compute {levels : Nat} {mood : Mood} {path : Path} {node : Node}
    {demand : Demand} {s₀ t₀ s t : State}
    (hc : ∀ s t, State.Echo path s₀ t₀ s t →
      Ending.Alike (fun a s b t => a = b ∧ State.Echo path s₀ t₀ s t) (State.Echo path s₀ t₀)
        (w.compute levels mood path node demand s) (w.compute levels mood path node demand t))
    (h : State.Echo path s₀ t₀ s t) :
    Ending.Alike (fun a s b t => a = b ∧ State.Echo path s₀ t₀ s t) (State.Echo path s₀ t₀)
      (w.visit levels mood path node demand s) (w.visit levels mood path node demand t) := by
  cases node with
  | stmt st =>
    rw [visit_stmt, visit_stmt]
    exact hc s t h
  | expr e =>
    have hr := w.remembered_congr h.agree demand mood.quiet
    cases hm : w.remembered s path demand mood.quiet with
    | some scope =>
      rw [visit_recalled w hm, visit_recalled w (hr.symm.trans hm)]
      exact .ok ⟨rfl, h.note _⟩
    | none =>
      rw [visit_computed w hm, visit_computed w (hr.symm.trans hm)]
      refine (hc _ _ (h.note _)).andThen ?_ fun _ _ h => h
      rintro scope s' _ t' ⟨rfl, h'⟩
      exact .ok ⟨rfl, h'.remember demand _⟩

private theorem carryOut_agree_of_visit {levels : Nat}
    (hv : ∀ mood path node demand (s t : State), s.Agree path t →
      Ending.Alike (fun a s' b t' => a = b ∧ State.Echo path s t s' t') (State.Echo path s t)
        (w.visit levels mood path node demand s) (w.visit levels mood path node demand t))
    {α : Type} (mood : Mood) (path : Path) (plan : Plan α) {s₀ t₀ s t : State}
    (h : State.Echo path s₀ t₀ s t) :
    Ending.Alike (fun a s' b t' => a = b ∧ State.Echo path s₀ t₀ s' t') (State.Echo path s₀ t₀)
      (w.carryOut levels mood path plan s) (w.carryOut levels mood path plan t) := by
  refine (Plan.Lockstep.refl (V := fun n m n' m' => n = n' ∧ m = m')
    (fun _ _ => ⟨rfl, rfl⟩) plan).run (State.Echo.matching path s₀ t₀ mood) ?_ h
  rintro route part _ asked inner _ s₁ t₁ ⟨rfl, rfl⟩ h₁
  -- Agreement at the part is what `hv` says, and elsewhere the visit changes nothing.
  have hs := w.visit_sameOutside levels (inner.within mood) (path ++ route) part asked s₁
  have ht := w.visit_sameOutside levels (inner.within mood) (path ++ route) part asked t₁
  have ha := hv (inner.within mood) (path ++ route) part asked _ _ (h₁.agree.append route)
  obtain ⟨events, hs₁, ht₁⟩ := h₁.events
  generalize w.visit levels (inner.within mood) (path ++ route) part asked s₁ = r at hs ha
  generalize w.visit levels (inner.within mood) (path ++ route) part asked t₁ = r' at ht ha
  cases ha with
  | ok ha =>
    obtain ⟨hab, hag, more, hs₂, ht₂⟩ := ha
    exact .ok ⟨hab, h₁.agree.whole hag hs ht, _, hs₁.trans hs₂, ht₁.trans ht₂⟩
  | error ha =>
    obtain ⟨hag, more, hs₂, ht₂⟩ := ha
    exact .error ⟨h₁.agree.whole hag hs ht, _, hs₁.trans hs₂, ht₁.trans ht₂⟩

/-- A visit depends on the recorded lifetimes and on what is remembered at or below its node, and on
nothing else: states that agree on these stay in agreement and see the same events. -/
theorem visit_agree (levels : Nat) (mood : Mood) (path : Path) (node : Node) (demand : Demand)
    {s t : State} (h : s.Agree path t) :
    Ending.Alike (fun a s' b t' => a = b ∧ State.Echo path s t s' t') (State.Echo path s t)
      (w.visit levels mood path node demand s) (w.visit levels mood path node demand t) := by
  induction levels generalizing mood path node demand s t with
  | zero => exact w.visit_agree_of_compute (fun _ _ h => .error h) h.echo
  | succ levels ih =>
    refine w.visit_agree_of_compute (fun s' t' h' => ?_) h.echo
    rw [compute_succ]
    exact w.carryOut_agree_of_visit (fun mood path node demand _ _ => ih mood path node demand) mood
      path _ h'

/-- So does the carrying out of a plan. -/
theorem carryOut_agree {α : Type} (levels : Nat) (mood : Mood) (path : Path) (plan : Plan α)
    {s₀ t₀ s t : State} (h : State.Echo path s₀ t₀ s t) :
    Ending.Alike (fun a s' b t' => a = b ∧ State.Echo path s₀ t₀ s' t') (State.Echo path s₀ t₀)
      (w.carryOut levels mood path plan s) (w.carryOut levels mood path plan t) :=
  w.carryOut_agree_of_visit
    (fun mood path node demand _ _ => w.visit_agree levels mood path node demand) mood path plan h

end Walker

end RefLifetime
