import RefLifetime.Proofs.Memory

/-!
# Keeping the books

`Walker.visit` hands its surroundings down: how many levels are left, whether to be quiet, and in
which region. A walker may keep counters in its state instead. It counts the levels that it has
entered and how often it was silenced, it notes the region, and it puts each of these back when what
it was changed for ends, also when that fails. `Walker.visitCounted` is this walk and it does what
`Walker.visit` does (`Walker.visitCounted_eq`), so no counter drifts. Of what a walk has found out,
nothing is lost (`State.Continues`), and a silenced walk reports nothing (`Walker.visit_silent`).
-/

namespace RefLifetime

/-! ### Walks that count -/

/-- What a walker counts on its way down. -/
structure Counters where
  /-- How many levels of nesting are entered. -/
  depth : Nat
  /-- How often the walker is told to be quiet. A rule may silence the visits of parts of its node,
  once each, so no more silencings are in force at a time than levels are entered. Every level is a
  call inside another: a 32-bit count would do for any walk that can be made, and no bound is kept
  here. -/
  suppressed : Nat
  region : Region
  deriving DecidableEq, Repr

/-- What the counters impose on a visit. -/
def Counters.mood (c : Counters) : Mood := ⟨decide (0 < c.suppressed), c.region⟩

/-- The counters of a walk, and what it has found out so far. -/
structure Ledger where
  counters : Counters
  state : State

namespace Ledger

/-- Changes what is found out, and no counter. -/
def update (l : Ledger) (change : State → State) : Ledger := { l with state := change l.state }

/-- Enters an event unless the walker is told to be quiet. -/
def tell (l : Ledger) (event : Event) : Ledger := l.update (·.tell l.counters.mood event)

end Ledger

/-- A walk that keeps counters. -/
abbrev CountedWalk := EStateM Failure Ledger

namespace CountedWalk

variable {α : Type}

/-- Changes the counters for the time of a walk. However the walk ends, `leave` changes them back,
and it is told what they were before. -/
def bracket (enter : Counters → Counters) (leave : Counters → Counters → Counters)
    (x : CountedWalk α) : CountedWalk α := fun before =>
  match x { before with counters := enter before.counters } with
  | .ok a after => .ok a { after with counters := leave before.counters after.counters }
  | .error e after => .error e { after with counters := leave before.counters after.counters }

/-- Is silent for the time of a walk. -/
def quietly : CountedWalk α → CountedWalk α :=
  bracket (fun c => { c with suppressed := c.suppressed + 1 })
    fun _ c => { c with suppressed := c.suppressed - 1 }

/-- Is in an unchecked region for the time of a walk. -/
def unchecked : CountedWalk α → CountedWalk α :=
  bracket (fun c => { c with region := .unchecked })
    fun outer c => { c with region := outer.region }

/-- Is one level deeper for the time of a walk. -/
def deeper : CountedWalk α → CountedWalk α :=
  bracket (fun c => { c with depth := c.depth + 1 }) fun _ c => { c with depth := c.depth - 1 }

/-- Imposes a mood for the time of a walk. -/
def under (inner : Mood) (x : CountedWalk α) : CountedWalk α :=
  let placed :=
    match inner.region with
    | .checked => x
    | .unchecked => unchecked x
  if inner.quiet then quietly placed else placed

end CountedWalk

/-- Carries out a plan with the counters at hand. -/
def Plan.runCounted {α : Type} (visit : Path → Node → Demand → CountedWalk Scope) :
    Plan α → CountedWalk α
  | .done result => pure result
  | .fail cause => throw cause
  | .visit route node demand inner next => do
    let scope ← CountedWalk.under inner (visit route node demand)
    (next scope).runCounted visit
  | .lookup id next => do
    let ledger ← get
    (next (ledger.state.lifetimes.get? id)).runCounted visit
  | .declare var lifetime next => do
    modify (·.update (·.declare var lifetime))
    next.runCounted visit
  | .report finding next => do
    modify fun l => l.tell (.reported (finding.inRegion l.counters.region))
    next.runCounted visit
  | .hint id next => do
    modify (·.tell (.hinted id))
    next.runCounted visit

namespace Walker

/-- Enters a level, unless as many as there may be are entered. -/
def entering (w : Walker) (node : Node) (x : CountedWalk Scope) : CountedWalk Scope := do
  let ledger ← get
  if w.limit ≤ ledger.counters.depth then
    throw (.depthExceeded w.limit (node.span w.setting.method.span))
  else CountedWalk.deeper x

/-- Answers a visit from memory where possible, else by `compute`. Whether the walker is silent is
read off the counters, before the computation and after it. -/
def rememberingCounted (w : Walker) (path : Path) (node : Node) (demand : Demand)
    (compute : CountedWalk Scope) : CountedWalk Scope :=
  match node with
  | .stmt _ => compute
  | .expr _ => do
    let ledger ← get
    let quiet := ledger.counters.mood.quiet
    match w.remembered ledger.state path demand quiet with
    | some scope =>
      modify (·.update (·.note (.visited path demand quiet true)))
      return scope
    | none =>
      modify (·.update (·.note (.visited path demand quiet false)))
      let scope ← compute
      modify fun l => l.update (·.remember path demand ⟨scope, l.counters.mood.quiet⟩)
      return scope

/-- Visits the node at `path`. How deep the walk is stands in the counters; `rounds` bounds the
recursion, and a walk that has the limit of its walker never runs out of them. -/
def visitCounted (w : Walker) (rounds : Nat) (path : Path) (node : Node) (demand : Demand) :
    CountedWalk Scope :=
  match rounds with
  | 0 =>
    w.rememberingCounted path node demand
      (throw (.depthExceeded w.limit (node.span w.setting.method.span)))
  | rounds + 1 =>
    w.rememberingCounted path node demand
      (w.entering node ((Rule.node w.setting node demand).runCounted
        fun route part asked => w.visitCounted rounds (path ++ route) part asked))

/-- Carries out a plan for the node at `path`, or for a clause of it. -/
def carryOutCounted {α : Type} (w : Walker) (rounds : Nat) (path : Path) (plan : Plan α) :
    CountedWalk α :=
  plan.runCounted fun route part asked => w.visitCounted rounds (path ++ route) part asked

end Walker

/-! ### Counting changes nothing -/

/-- How a walk ends that keeps counters, if these are at the end what they were at the start. -/
def Ending.filed {α : Type} (c : Counters) : Ending α → EStateM.Result Failure Ledger α
  | .ok a s => .ok a ⟨c, s⟩
  | .error e s => .error e ⟨c, s⟩

namespace CountedWalk

variable {α β : Type} {c : Counters} {s : State}

private theorem get_bind (f : Ledger → CountedWalk α) (l : Ledger) : (get >>= f) l = f l l := rfl

private theorem modify_bind (change : Ledger → Ledger) (f : PUnit → CountedWalk α) (l : Ledger) :
    (modify change >>= f) l = f ⟨⟩ (change l) := rfl

/-- What follows a walk finds the counters as the walk found them. -/
theorem bind_filed {x : CountedWalk α} {f : α → CountedWalk β} {r : Ending α}
    {g : α → State → Ending β} (hx : x ⟨c, s⟩ = Ending.filed c r)
    (hf : ∀ a s', f a ⟨c, s'⟩ = Ending.filed c (g a s')) :
    (x >>= f) ⟨c, s⟩ = Ending.filed c (Ending.andThen r g) := by
  change EStateM.bind (fun _ => x ⟨c, s⟩) f ⟨c, s⟩ = _
  rw [hx]
  cases r with
  | ok a s' => exact hf a s'
  | error e s' => rfl

/-- A change of counters that is undone at the end does not show. -/
theorem bracket_filed {enter : Counters → Counters} {leave : Counters → Counters → Counters}
    {x : CountedWalk α} {r : Ending α} (hx : x ⟨enter c, s⟩ = Ending.filed (enter c) r)
    (hl : leave c (enter c) = c) : bracket enter leave x ⟨c, s⟩ = Ending.filed c r := by
  unfold bracket
  dsimp only
  rw [hx]
  cases r with
  | ok a s' => exact congrArg (fun c => EStateM.Result.ok a (Ledger.mk c s')) hl
  | error e s' => exact congrArg (fun c => EStateM.Result.error e (Ledger.mk c s')) hl

/-- To impose a mood is to visit in that mood inside the present one. -/
theorem under_filed {x : CountedWalk α} {walk : Mood → Walk α} {depth : Nat}
    (hx : ∀ c s, c.depth = depth → x ⟨c, s⟩ = Ending.filed c (walk c.mood s))
    (hc : c.depth = depth) (inner : Mood) :
    under inner x ⟨c, s⟩ = Ending.filed c (walk (inner.within c.mood) s) := by
  obtain ⟨quiet, region⟩ := inner
  -- The region is put back inside the silence, so it comes first and for any counters.
  have hplaced (c : Counters) (hc : c.depth = depth) :
      under ⟨false, region⟩ x ⟨c, s⟩ =
        Ending.filed c (walk ⟨c.mood.quiet, region.within c.region⟩ s) := by
    cases region with
    | checked =>
      rw [Region.checked_within]
      exact hx c s hc
    | unchecked =>
      rw [Region.unchecked_within]
      show unchecked x ⟨c, s⟩ = _
      rw [unchecked]
      exact bracket_filed (hx { c with region := .unchecked } s hc) rfl
  cases quiet with
  | false => exact hplaced c hc
  | true =>
    show quietly (under ⟨false, region⟩ x) ⟨c, s⟩ = _
    rw [quietly]
    exact bracket_filed (hplaced { c with suppressed := c.suppressed + 1 } hc) rfl

end CountedWalk

/-- A plan runs the same with counters as without, if its visits do. They are all made at one
depth. -/
theorem Plan.runCounted_eq {α : Type} {counted : Path → Node → Demand → CountedWalk Scope}
    {visit : Visitor} {depth : Nat}
    (hv : ∀ route node demand c s, c.depth = depth →
      counted route node demand ⟨c, s⟩ = Ending.filed c (visit route node demand c.mood s))
    (p : Plan α) {c : Counters} (hc : c.depth = depth) (s : State) :
    p.runCounted counted ⟨c, s⟩ = Ending.filed c (p.run visit c.mood s) := by
  induction p generalizing s with
  | done a => rfl
  | fail cause => rfl
  | visit route node demand inner next ih =>
    rw [run_visit]
    refine CountedWalk.bind_filed ?_ fun scope s' => ih scope s'
    exact CountedWalk.under_filed (fun c s hc => hv route node demand c s hc) hc inner
  | lookup id next ih => exact ih _ s
  | declare var lifetime next ih => exact ih (s.declare var lifetime)
  | report finding next ih => exact ih (s.tell c.mood (.reported (finding.inRegion c.region)))
  | hint id next ih => exact ih (s.tell c.mood (.hinted id))

namespace Walker

variable (w : Walker)

/-- Memory serves a counting walk as it serves the other. -/
theorem rememberingCounted_eq {levels : Nat} {path : Path} {node : Node} {demand : Demand}
    {compute : CountedWalk Scope} {c : Counters}
    (hc : ∀ s, compute ⟨c, s⟩ = Ending.filed c (w.compute levels c.mood path node demand s))
    (s : State) :
    w.rememberingCounted path node demand compute ⟨c, s⟩ =
      Ending.filed c (w.visit levels c.mood path node demand s) := by
  cases node with
  | stmt st =>
    rw [visit_stmt]
    exact hc s
  | expr e =>
    rw [rememberingCounted, CountedWalk.get_bind]
    cases hm : w.remembered s path demand c.mood.quiet with
    | some scope =>
      rw [visit_recalled w hm]
      rfl
    | none =>
      rw [visit_computed w hm]
      dsimp only
      rw [CountedWalk.modify_bind]
      exact CountedWalk.bind_filed (hc _) fun scope s' => rfl

/-- Entering a level is what a visit with levels left does, and a visit without any fails. -/
theorem entering_eq {path : Path} {node : Node} {demand : Demand} {x : CountedWalk Scope}
    {c : Counters}
    (hx : c.depth < w.limit → ∀ s, x ⟨{ c with depth := c.depth + 1 }, s⟩ =
      Ending.filed { c with depth := c.depth + 1 }
        (w.carryOut (w.limit - (c.depth + 1)) c.mood path (Rule.node w.setting node demand) s))
    (s : State) :
    w.entering node x ⟨c, s⟩ =
      Ending.filed c (w.compute (w.limit - c.depth) c.mood path node demand s) := by
  change (if w.limit ≤ c.depth then _ else _ : CountedWalk Scope) ⟨c, s⟩ = _
  by_cases h : w.limit ≤ c.depth
  · rw [if_pos h, Nat.sub_eq_zero_of_le h]
    rfl
  · have hlt : c.depth < w.limit := Nat.lt_of_not_le h
    have hlevels : w.limit - c.depth = w.limit - (c.depth + 1) + 1 := by omega
    rw [if_neg h, hlevels, compute_succ]
    exact CountedWalk.bracket_filed (hx hlt s) rfl

/-- A visit that keeps counters does what a visit does that has as many levels left as the counters
leave, and ends with the counters that it began with. -/
theorem visitCounted_eq (rounds : Nat) (path : Path) (node : Node) (demand : Demand)
    {c : Counters} (hr : w.limit ≤ c.depth + rounds) (s : State) :
    w.visitCounted rounds path node demand ⟨c, s⟩ =
      Ending.filed c (w.visit (w.limit - c.depth) c.mood path node demand s) := by
  induction rounds generalizing path node demand c s with
  | zero =>
    have h : w.limit - c.depth = 0 := Nat.sub_eq_zero_of_le hr
    apply rememberingCounted_eq
    intro s
    rw [h]
    rfl
  | succ rounds ih =>
    apply rememberingCounted_eq
    apply entering_eq
    intro hlt s
    -- One level deeper there is one round less, and still one for each level that is left.
    have hr' : w.limit ≤ c.depth + 1 + rounds := by omega
    refine Plan.runCounted_eq ?_ _ rfl s
    intro route part asked inner t hd
    dsimp only at hd
    rw [← hd] at hr' ⊢
    exact ih (path ++ route) part asked hr' t

/-- The same for a plan whose visits count. -/
theorem carryOutCounted_eq {α : Type} (rounds : Nat) (path : Path) (plan : Plan α) {c : Counters}
    (hr : w.limit ≤ c.depth + rounds) (s : State) :
    w.carryOutCounted rounds path plan ⟨c, s⟩ =
      Ending.filed c (w.carryOut (w.limit - c.depth) c.mood path plan s) := by
  refine Plan.runCounted_eq ?_ plan rfl s
  intro route part asked inner t hd
  rw [← hd] at hr ⊢
  exact w.visitCounted_eq rounds (path ++ route) part asked hr t

end Walker

/-! ### What a walk has found out stays found out -/

/-- Nothing that was found out is lost: diagnostics and hints are added at the end, locals stay
declared and what was remembered stays remembered. -/
structure State.Continues (s t : State) : Prop where
  diagnostics : s.journal.diagnostics.toList <+: t.journal.diagnostics.toList
  hints : s.journal.hints <+: t.journal.hints
  declared : ∀ id, s.lifetimes.contains id = true → t.lifetimes.contains id = true
  remembered : ∀ path demand, (s.memo.get? path demand).isSome = true →
    (t.memo.get? path demand).isSome = true

namespace State

private theorem persistent_continues : Persistent Continues where
  refl s := ⟨List.prefix_refl _, List.prefix_refl _, fun _ h => h, fun _ _ h => h⟩
  trans h h' := by
    constructor
    · exact h.diagnostics.trans h'.diagnostics
    · exact h.hints.trans h'.hints
    · intro id hd
      exact h'.declared id (h.declared id hd)
    · intro path demand hm
      exact h'.remembered path demand (h.remembered path demand hm)
  note s event := by
    have hg := persistent_grows.note s event
    exact ⟨hg.diagnostics, hg.hints, fun _ h => h, fun _ _ h => h⟩
  declare s var lifetime := by
    have hg := persistent_grows.declare s var lifetime
    refine ⟨hg.diagnostics, hg.hints, ?_, fun _ _ h => h⟩
    intro id hd
    rw [Lifetimes.contains, declare, Lifetimes.get?_insert]
    split
    · rfl
    · exact hd

private theorem continues_remember (s : State) (path : Path) (demand : Demand) (reading : Reading) :
    s.Continues (s.remember path demand reading) := by
  refine ⟨List.prefix_refl _, List.prefix_refl _, fun _ h => h, ?_⟩
  intro q asked hm
  rw [remember, Memo.get?_insert]
  split
  · rfl
  · exact hm

end State

/-- In a quiet mood a plan finds out nothing to report, if its visits do not. -/
theorem Plan.run_silent {α : Type} {visit : Visitor} {mood : Mood} (hq : mood.quiet = true)
    (hv : ∀ route node demand inner s, inner.quiet = true →
      State.findings (Ending.state (visit route node demand inner s)) = s.findings)
    (p : Plan α) (s : State) : State.findings (Ending.state (p.run visit mood s)) = s.findings := by
  induction p generalizing s with
  | done a => rfl
  | fail cause => rfl
  | visit route node demand inner next ih =>
    have hin : (inner.within mood).quiet = true := by simp [Mood.within, hq]
    have h := hv route node demand (inner.within mood) s hin
    rw [run_visit]
    generalize visit route node demand (inner.within mood) s = r at h
    cases r with
    | ok scope s' => exact (ih scope s').trans h
    | error e s' => exact h
  | lookup id next ih => exact ih _ s
  | declare var lifetime next ih => exact (ih _).trans (s.findings_declare var lifetime)
  | report finding next ih =>
    rw [run_report, s.tell_quiet hq]
    exact ih s
  | hint id next ih =>
    rw [run_hint, s.tell_quiet hq]
    exact ih s

namespace Walker

variable (w : Walker)

/-- Memory changes no finding. -/
private theorem silent_of_compute {levels : Nat} {mood : Mood} {path : Path} {node : Node}
    {demand : Demand}
    (hc : ∀ s, State.findings (Ending.state (w.compute levels mood path node demand s)) =
      s.findings) (s : State) :
    State.findings (Ending.state (w.visit levels mood path node demand s)) = s.findings := by
  have hmeets : Ending.Meets (fun _ t => t.findings = s.findings) (·.findings = s.findings)
      (w.visit levels mood path node demand s) := by
    refine w.visit_meets (fun _ _ => s.findings_visited path demand mood.quiet true) ?_
      fun _ _ _ h => h
    intro t ht
    apply Ending.Meets.of_state
    rw [hc t]
    rcases ht with rfl | rfl
    · rfl
    · exact s.findings_visited path demand mood.quiet false
  exact hmeets.state (fun _ _ h => h) fun _ h => h

/-- A quiet visit reports nothing and gives no hint. -/
theorem visit_silent (levels : Nat) {mood : Mood} (hq : mood.quiet = true) (path : Path)
    (node : Node) (demand : Demand) (s : State) :
    State.findings (Ending.state (w.visit levels mood path node demand s)) = s.findings := by
  induction levels generalizing mood path node demand s with
  | zero => exact w.silent_of_compute (fun s => rfl) s
  | succ levels ih =>
    apply w.silent_of_compute
    intro s
    rw [compute_succ]
    apply Plan.run_silent hq
    intro route part asked inner t hin
    exact ih hin (path ++ route) part asked t

/-- A visit loses nothing that was found out. -/
theorem visit_continues (levels : Nat) (mood : Mood) (path : Path) (node : Node) (demand : Demand)
    (s : State) : s.Continues (Ending.state (w.visit levels mood path node demand s)) :=
  w.visit_respects State.persistent_continues State.continues_remember levels mood path node
    demand s

/-- Carrying out a plan loses nothing that was found out. -/
theorem carryOut_continues {α : Type} (levels : Nat) (mood : Mood) (path : Path) (plan : Plan α)
    (s : State) : s.Continues (Ending.state (w.carryOut levels mood path plan s)) := by
  apply State.persistent_continues.run mood
  intro route part asked inner t
  exact w.visit_continues levels inner (path ++ route) part asked t

/-- Carrying out a plan quietly reports nothing and gives no hint. -/
theorem carryOut_silent {α : Type} (levels : Nat) {mood : Mood} (hq : mood.quiet = true)
    (path : Path) (plan : Plan α) (s : State) :
    State.findings (Ending.state (w.carryOut levels mood path plan s)) = s.findings := by
  apply Plan.run_silent hq
  intro route part asked inner t hin
  exact w.visit_silent levels hin (path ++ route) part asked t

end Walker

/-! ### The books -/

/-- Between two ledgers no counter has changed, nothing that was found out is lost, and a silenced
walker has reported nothing and given no hint. -/
structure Ledger.Kept (before after : Ledger) : Prop where
  depth : after.counters.depth = before.counters.depth
  suppressed : after.counters.suppressed = before.counters.suppressed
  region : after.counters.region = before.counters.region
  continues : before.state.Continues after.state
  silent : 0 < before.counters.suppressed →
    after.state.journal.diagnostics.toList = before.state.journal.diagnostics.toList ∧
      after.state.journal.hints = before.state.journal.hints

/-- A walk that keeps counters ends as the walk without them does, with its books kept, whether it
succeeds or fails. -/
inductive Ledger.Balances {α : Type} (before : Ledger) :
    EStateM.Result Failure Ledger α → Ending α → Prop
  | ok {a : α} {after : Ledger} (h : before.Kept after) :
      Balances before (.ok a after) (.ok a after.state)
  | error {e : Failure} {after : Ledger} (h : before.Kept after) :
      Balances before (.error e after) (.error e after.state)

/-- The books balance if the counters are at the end what they were and the state continues the one
before, without a finding when the walker is silenced. -/
theorem Ledger.balances_filed {α : Type} {before : Ledger} {r : Ending α}
    (hc : before.state.Continues (Ending.state r))
    (hs : before.counters.mood.quiet = true →
      State.findings (Ending.state r) = before.state.findings) :
    before.Balances (Ending.filed before.counters r) r := by
  have hkept : before.Kept ⟨before.counters, Ending.state r⟩ := by
    refine ⟨rfl, rfl, rfl, hc, ?_⟩
    intro hq
    have h := hs (decide_eq_true hq)
    exact ⟨congrArg Prod.fst h, congrArg Prod.snd h⟩
  cases r with
  | ok a s => exact .ok hkept
  | error e s => exact .error hkept

namespace Walker

variable (w : Walker)

/-- Every visit leaves the books as it found them, also when it fails. A walker that counts levels
and silencings in its state, whatever it has counted so far, does on any expression, statement,
block or pattern what the walk does that hands these down. Afterwards its counters are what they
were, what it had found out is still there, and if it was silenced it has found nothing to
report. -/
theorem visits_keep_the_books (path : Path) (before : Ledger) :
    let levels := w.limit - before.counters.depth
    let mood := before.counters.mood
    (∀ node demand, before.Balances (w.visitCounted w.limit path node demand before)
      (w.visit levels mood path node demand before.state)) ∧
    (∀ route body demand region, before.Balances
      (w.carryOutCounted w.limit path (Rule.stmts route body demand region) before)
      (w.carryOut levels mood path (Rule.stmts route body demand region) before.state)) ∧
    (∀ route input demand p, before.Balances
      (w.carryOutCounted w.limit path (Rule.pattern route input demand p) before)
      (w.carryOut levels mood path (Rule.pattern route input demand p) before.state)) := by
  intro levels mood
  have hr : w.limit ≤ before.counters.depth + w.limit := Nat.le_add_left _ _
  have hplan (plan : Plan Unit) : before.Balances (w.carryOutCounted w.limit path plan before)
      (w.carryOut levels mood path plan before.state) := by
    rw [w.carryOutCounted_eq w.limit path plan hr before.state]
    apply Ledger.balances_filed (w.carryOut_continues levels mood path plan before.state)
    intro hq
    exact w.carryOut_silent levels hq path plan before.state
  refine ⟨?_, fun route body demand region => hplan _, fun route input demand p => hplan _⟩
  intro node demand
  rw [w.visitCounted_eq w.limit path node demand hr before.state]
  apply Ledger.balances_filed (w.visit_continues levels mood path node demand before.state)
  intro hq
  exact w.visit_silent levels hq path node demand before.state

end Walker

end RefLifetime
