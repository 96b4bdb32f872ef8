import RefLifetime.Proofs.Apart
import RefLifetime.Proofs.Run
import RefLifetime.Proofs.Tour

/-!
# Two targets

An expression is visited twice from the same state, for a strict target and for a laxer one. The two
visits make the same requests, except that the target is handed on to some of the parts and that the
strict visit may complain where the lax one does not. `Plan.Twin` relates the two plans and counts
complaints; `Plan.Twin.run` follows them through the walk.
-/

namespace RefLifetime

/-- What the events of a strict visit and of a lax one have in common. Where the comparison is
`exact`, `more` says whether the strict visit reported more. -/
structure Tally (exact : Prop) (more : Bool) (strict lax : List Event) : Prop where
  spans : ((Event.diagnostics lax).map (·.span)).Sublist ((Event.diagnostics strict).map (·.span))
  hints : strict.filterMap Event.hint? = lax.filterMap Event.hint?
  same : exact → more = false → Event.diagnostics strict = Event.diagnostics lax
  longer : exact → more = true →
    (Event.diagnostics lax).length < (Event.diagnostics strict).length

namespace Tally

variable {exact : Prop} {more more' : Bool} {xs ys xs' ys' : List Event}

/-- The same events leave everything equal. -/
theorem refl (exact : Prop) (events : List Event) : Tally exact false events events :=
  ⟨List.Sublist.refl _, rfl, fun _ _ => rfl, fun _ h => by cases h⟩

/-- A strict visit reports at least as much. -/
theorem length_le (h : Tally exact more xs ys) :
    (Event.diagnostics ys).length ≤ (Event.diagnostics xs).length := by
  simpa using h.spans.length_le

/-- Later events add to the comparison. -/
theorem append (h : Tally exact more xs ys) (h' : Tally exact more' xs' ys') :
    Tally exact (more || more') (xs ++ xs') (ys ++ ys') := by
  have hl := h.length_le
  have hl' := h'.length_le
  refine ⟨?_, ?_, ?_, ?_⟩
  · simpa [Event.diagnostics] using h.spans.append h'.spans
  · simp [h.hints, h'.hints]
  · intro hx hm
    rw [Bool.or_eq_false_iff] at hm
    have hs := h.same hx hm.1
    have hs' := h'.same hx hm.2
    simp only [Event.diagnostics, List.filterMap_append] at hs hs' ⊢
    rw [hs, hs']
  · intro hx hm
    have hlen (us vs : List Event) : (Event.diagnostics (us ++ vs)).length =
        (Event.diagnostics us).length + (Event.diagnostics vs).length := by
      simp [Event.diagnostics]
    rw [hlen, hlen]
    rcases Bool.or_eq_true_iff.mp hm with hm | hm
    · have := h.longer hx hm
      omega
    · have := h'.longer hx hm
      omega

/-- Events that both visits see change nothing in the comparison. -/
theorem append_same (h : Tally exact more xs ys) (events : List Event) :
    Tally exact more (xs ++ events) (ys ++ events) := by
  simpa using h.append (refl exact events)

end Tally

/-- All parts that the plan visits stand apart from the places in `handed`. -/
def Plan.Avoids {α : Type} (handed : Path → Prop) : Plan α → Prop
  | .done _ | .fail _ => True
  | .visit route _ _ _ next => (∀ r, handed r → route.Apart r) ∧ ∀ scope, (next scope).Avoids handed
  | .lookup _ next => ∀ found, (next found).Avoids handed
  | .declare _ _ next | .report _ next | .hint _ next => next.Avoids handed

/-- Two plans that differ in the target that they hand on. Visits at the places in `handed` pass the
target on, all other visits are the same. `ahead` holds of the places that are still to be visited,
`more` says whether the strict plan has complained more so far, and the result, what is still ahead
and the final count satisfy `Q`. Of a part that is visited with the target, `A` says whether its
complaints are known to match its scope. -/
inductive Plan.Twin {α : Type} (A : Mode → Expr → Prop) (strict lax : Scope)
    (handed : Path → Prop) (Q : α → (Path → Prop) → Bool → Prop) :
    (Path → Prop) → Bool → Plan α → Plan α → Prop
  | done {ahead : Path → Prop} {more : Bool} {a : α} (h : Q a ahead more) :
      Twin A strict lax handed Q ahead more (.done a) (.done a)
  | fail {ahead : Path → Prop} {more : Bool} (cause : Failure) :
      Twin A strict lax handed Q ahead more (.fail cause) (.fail cause)
  | same {ahead : Path → Prop} {more : Bool} {route : Path} {node : Node} {demand : Demand}
      {inner : Mood} {next next' : Scope → Plan α} (hr : ∀ r, handed r → route.Apart r)
      (hn : ∀ scope, Twin A strict lax handed Q ahead more (next scope) (next' scope)) :
      Twin A strict lax handed Q ahead more (.visit route node demand inner next)
        (.visit route node demand inner next')
  | hand {ahead ahead' : Path → Prop} {more : Bool} {route : Path} {e : Expr} {block : Scope}
      {mode : Mode} {next next' : Scope → Plan α} (ha : ahead route)
      (hr : ∀ r, ahead' r → ahead r ∧ route.Apart r)
      (hn : ∀ scope more', (A mode e → more' = (more || scope.narrowerThan strict)) →
        Twin A strict lax handed Q ahead' more' (next scope) (next' scope)) :
      Twin A strict lax handed Q ahead more (.visit route (.expr e) ⟨block, mode, strict⟩ {} next)
        (.visit route (.expr e) ⟨block, mode, lax⟩ {} next')
  | lookup {ahead : Path → Prop} {more : Bool} {id : Nat} {next next' : Option Lifetime → Plan α}
      (hn : ∀ found, Twin A strict lax handed Q ahead more (next found) (next' found)) :
      Twin A strict lax handed Q ahead more (.lookup id next) (.lookup id next')
  | declare {ahead : Path → Prop} {more : Bool} {var : Local} {lifetime : Lifetime}
      {next next' : Plan α} (hn : Twin A strict lax handed Q ahead more next next') :
      Twin A strict lax handed Q ahead more (.declare var lifetime next)
        (.declare var lifetime next')
  | report {ahead : Path → Prop} {more : Bool} {finding : Finding} {next next' : Plan α}
      (hn : Twin A strict lax handed Q ahead more next next') :
      Twin A strict lax handed Q ahead more (.report finding next) (.report finding next')
  | hint {ahead : Path → Prop} {more : Bool} {id : Nat} {next next' : Plan α}
      (hn : Twin A strict lax handed Q ahead more next next') :
      Twin A strict lax handed Q ahead more (.hint id next) (.hint id next')
  /-- Only the strict plan complains. -/
  | complain {ahead : Path → Prop} {more : Bool} {finding : Finding} {p q : Plan α}
      (hn : Twin A strict lax handed Q ahead true p q) :
      Twin A strict lax handed Q ahead more (.report finding p) q
  /-- Both plans complain at one place, though not always in the same words. -/
  | restate {ahead : Path → Prop} {more : Bool} {finding finding' : Finding} {p q : Plan α}
      (hs : finding.span = finding'.span) (hl : lax ≠ .unused)
      (hn : Twin A strict lax handed Q ahead true p q) :
      Twin A strict lax handed Q ahead more (.report finding p) (.report finding' q)

/-- Every plan avoids nothing. -/
theorem Plan.avoids_none {α : Type} (p : Plan α) : p.Avoids fun _ => False := by
  induction p with
  | done a => trivial
  | fail cause => trivial
  | visit route node demand inner next ih => exact ⟨fun _ h => h.elim, ih⟩
  | lookup id next ih => exact ih
  | declare var lifetime next ih => exact ih
  | report finding next ih => exact ih
  | hint id next ih => exact ih

/-- A tour avoids what its stops stand apart from. -/
theorem Plan.Tours.avoids {α : Type} {whole : Demand} {hazard : Prop} {Q : α → Prop}
    {seen : List Answer} {todo : List Stop} {p : Plan α} {handed : Path → Prop}
    (h : Tours whole hazard Q seen todo p)
    (hs : ∀ x ∈ seen, ∀ r, handed r → x.part.route.Apart r)
    (ht : Stop.All (fun part => ∀ r, handed r → part.route.Apart r) todo) : p.Avoids handed := by
  induction h with
  | done h => trivial
  | fail hz => trivial
  | first hq ha hn ih =>
    exact ⟨ht.head, fun scope => ih scope (List.forall_mem_cons.mpr ⟨ht.head, hs⟩) ht.tail⟩
  | again hq hx hf hd hn ih =>
    obtain ⟨x, hx, rfl⟩ := hx
    exact ⟨hs x hx, fun scope => ih scope hs ht⟩
  | declare hz hn ih => exact ih hs ht.tail
  | designate h hn ih =>
    intro found
    cases found with
    | none =>
      rw [h]
      exact ih _ hs ht.tail
    | some l => exact ih l hs ht.tail
  | lookup hz h hn ih =>
    intro found
    cases found with
    | none =>
      rw [h]
      trivial
    | some l => exact ih l hs ht
  | report hn ih => exact ih hs ht
  | hint hn ih => exact ih hs ht

namespace Plan.Twin

variable {α β : Type} {A : Mode → Expr → Prop} {strict lax : Scope} {handed : Path → Prop}
  {Q : α → (Path → Prop) → Bool → Prop} {R : β → (Path → Prop) → Bool → Prop}

/-- Continuations of twins are twins. -/
theorem bind {ahead : Path → Prop} {more : Bool} {p q : Plan α} {f g : α → Plan β}
    (h : Twin A strict lax handed Q ahead more p q)
    (hf : ∀ a ahead more, Q a ahead more → Twin A strict lax handed R ahead more (f a) (g a)) :
    Twin A strict lax handed R ahead more (p >>= f) (q >>= g) := by
  change Twin A strict lax handed R ahead more (p.bind f) (q.bind g)
  induction h with
  | done h => exact hf _ _ _ h
  | fail cause => exact .fail cause
  | same hr _ ih => exact .same hr ih
  | hand ha hr _ ih => exact .hand ha hr ih
  | lookup _ ih => exact .lookup ih
  | declare _ ih => exact .declare ih
  | report _ ih => exact .report ih
  | hint _ ih => exact .hint ih
  | complain _ ih => exact .complain ih
  | restate hs hl _ ih => exact .restate hs hl ih

/-- What is known of the results may be weakened. -/
theorem imp {Q' : α → (Path → Prop) → Bool → Prop} {ahead : Path → Prop} {more : Bool}
    {p q : Plan α} (h : Twin A strict lax handed Q ahead more p q)
    (hQ : ∀ a ahead more, Q a ahead more → Q' a ahead more) :
    Twin A strict lax handed Q' ahead more p q := by
  induction h with
  | done h => exact .done (hQ _ _ _ h)
  | fail cause => exact .fail cause
  | same hr _ ih => exact .same hr ih
  | hand ha hr _ ih => exact .hand ha hr ih
  | lookup _ ih => exact .lookup ih
  | declare _ ih => exact .declare ih
  | report _ ih => exact .report ih
  | hint _ ih => exact .hint ih
  | complain _ ih => exact .complain ih
  | restate hs hl _ ih => exact .restate hs hl ih

/-- What the two plans do alike, without the target, changes nothing in the comparison. -/
theorem skip {ahead : Path → Prop} {more : Bool} {p : Plan α} {f g : α → Plan β}
    (h : p.Avoids handed) (hf : ∀ a, Twin A strict lax handed R ahead more (f a) (g a)) :
    Twin A strict lax handed R ahead more (p >>= f) (p >>= g) := by
  change Twin A strict lax handed R ahead more (p.bind f) (p.bind g)
  induction p with
  | done a => exact hf a
  | fail cause => exact .fail cause
  | visit route node demand inner next ih => exact .same h.1 fun scope => ih scope (h.2 scope)
  | lookup id next ih => exact .lookup fun found => ih found (h found)
  | declare var lifetime next ih => exact .declare (ih h)
  | report finding next ih => exact .report (ih h)
  | hint id next ih => exact .hint (ih h)

/-- The members of a list, each of which may be handed the target. -/
theorem forEach {P : α → Prop} {ahead : Nat → Path → Prop} {f g : Nat → α → Plan Scope}
    (h : ∀ i a more, Twin A strict lax handed
      (fun scope left more' =>
        left = ahead (i + 1) ∧ (P a → more' = (more || scope.narrowerThan strict)))
      (ahead i) more (f i a) (g i a)) (items : List α) (start : Nat) (more : Bool) :
    Twin A strict lax handed
      (fun scopes _ more' => (∀ a ∈ items, P a) →
        more' = (more || scopes.any (·.narrowerThan strict)))
      (ahead start) more (Plan.forEach f items start) (Plan.forEach g items start) := by
  induction items generalizing start more with
  | nil => exact .done (by simp)
  | cons item rest ih =>
    refine bind (h start item more) fun scope left more₁ h₁ => ?_
    obtain ⟨rfl, h₁⟩ := h₁
    refine bind (ih (start + 1) more₁) fun scopes _ more₂ h₂ => .done ?_
    intro hp
    rw [h₂ fun a ha => hp a (List.mem_cons_of_mem _ ha), h₁ (hp item List.mem_cons_self),
      List.any_cons, Bool.or_assoc]

end Plan.Twin

/-! ### Two runs -/

namespace State

/-- Two states in the visits of a node at `path`: they differ only in what they remember of the
parts that the target was handed to, and remember nothing of those that are still ahead. -/
structure Paired (path : Path) (handed ahead : Path → Prop) (s t : State) : Prop where
  lifetimes : s.lifetimes = t.lifetimes
  memo : ∀ q demand, path <+: q → (∀ r, handed r → ¬ path ++ r <+: q) →
    s.memo.get? q demand = t.memo.get? q demand
  handed : ∀ r, ahead r → handed r
  fresh : ∀ r, ahead r → Fresh (path ++ r) s ∧ Fresh (path ++ r) t

/-- The events since `s₀` and `t₀` compare as `more` says. -/
def Tallied (exact : Prop) (more : Bool) (s₀ t₀ s t : State) : Prop :=
  ∃ xs ys, s₀.Extends xs s ∧ t₀.Extends ys t ∧ Tally exact more xs ys

variable {exact : Prop} {more : Bool} {path route : Path} {handed ahead : Path → Prop}
  {s₀ t₀ s t s' t' : State}

/-- Comparisons of one stretch and the next add up. -/
theorem Tallied.trans {more' : Bool} (h : Tallied exact more s₀ t₀ s t)
    (h' : Tallied exact more' s t s' t') : Tallied exact (more || more') s₀ t₀ s' t' := by
  obtain ⟨xs, ys, hs, ht, hx⟩ := h
  obtain ⟨xs', ys', hs', ht', hx'⟩ := h'
  exact ⟨_, _, hs.trans hs', ht.trans ht', hx.append hx'⟩

/-- A stretch in which both see the same. -/
theorem Tallied.echo (h : Tallied exact more s₀ t₀ s t) (h' : Echo route s t s' t') :
    Tallied exact more s₀ t₀ s' t' := by
  obtain ⟨xs, ys, hs, ht, hx⟩ := h
  obtain ⟨events, hs', ht'⟩ := h'.events
  exact ⟨_, _, hs.trans hs', ht.trans ht', hx.append_same events⟩

/-- The complaints still compare after both have told the same. -/
theorem Tallied.tell (h : Tallied exact more s₀ t₀ s t) (mood : Mood) (event : Event) :
    Tallied exact more s₀ t₀ (s.tell mood event) (t.tell mood event) := by
  obtain ⟨xs, ys, hs, ht, hx⟩ := h
  exact ⟨_, _, hs.trans (extends_tell s mood event), ht.trans (extends_tell t mood event),
    hx.append_same _⟩

/-- The strict visit reports something, and the lax one at most something else at the same place. -/
theorem Tallied.report {mood : Mood} (hq : exact → mood.quiet = false)
    (h : Tallied exact more s₀ t₀ s t) (d : Diagnostic) {others : List Event}
    (hl : t.Extends (if mood.quiet then [] else others) t')
    (ho : others = [] ∨ ¬ exact ∧ ∃ d', d'.span = d.span ∧ others = [.reported d']) :
    Tallied exact true s₀ t₀ (s.tell mood (.reported d)) t' := by
  have hd : Tally exact true (if mood.quiet then [] else [.reported d])
      (if mood.quiet then [] else others) := by
    cases hm : mood.quiet with
    | true =>
      have hx : ¬ exact := fun hx => by simp [hq hx] at hm
      exact ⟨List.Sublist.refl _, rfl, fun h => absurd h hx, fun h => absurd h hx⟩
    | false =>
      rcases ho with rfl | ⟨hx, d', hs, rfl⟩
      · exact ⟨List.nil_sublist _, rfl, by simp, fun _ _ => Nat.one_pos⟩
      · refine ⟨?_, rfl, fun h => absurd h hx, fun h => absurd h hx⟩
        simp [Event.diagnostics, Event.diagnostic?, hs]
  have hc := h.trans ⟨_, _, extends_tell s mood (.reported d), hl, hd⟩
  rwa [Bool.or_true] at hc

/-- The states agree below a part that the target is not handed to. -/
theorem Paired.agree (h : Paired path handed ahead s t) (hr : ∀ r, handed r → route.Apart r) :
    Agree (path ++ route) s t := by
  refine ⟨h.lifetimes, fun q demand hq => h.memo q demand ?_ fun r hd => ?_⟩
  · exact (List.prefix_append path route).trans hq
  · exact ((Path.apart_append_left path _ _).mpr (hr r hd)).excludes hq

/-- After a visit of a part that the target is not handed to. -/
theorem Paired.same (h : Paired path handed ahead s t) (hr : ∀ r, handed r → route.Apart r)
    (ha : Agree (path ++ route) s' t') (hs : SameOutside (path ++ route) s s')
    (ht : SameOutside (path ++ route) t t') : Paired path handed ahead s' t' := by
  refine ⟨ha.lifetimes, fun q demand hq hn => ?_, h.handed, fun r hd => ?_⟩
  · by_cases hp : path ++ route <+: q
    · exact ha.memo q demand hp
    · rw [hs q demand hp, ht q demand hp]
      exact h.memo q demand hq hn
  · have hapart := (Path.apart_append_left path _ _).mpr (hr r (h.handed r hd))
    obtain ⟨hfs, hft⟩ := h.fresh r hd
    exact ⟨hfs.of_sameOutside hs hapart, hft.of_sameOutside ht hapart⟩

/-- After a visit of a part that the target is handed to. -/
theorem Paired.hand {ahead' : Path → Prop} (h : Paired path handed ahead s t) (ha : ahead route)
    (hr : ∀ r, ahead' r → ahead r ∧ route.Apart r) (hl : s'.lifetimes = t'.lifetimes)
    (hs : SameOutside (path ++ route) s s') (ht : SameOutside (path ++ route) t t') :
    Paired path handed ahead' s' t' := by
  refine ⟨hl, fun q demand hq hn => ?_, fun r hd => h.handed r (hr r hd).1, fun r hd => ?_⟩
  · have hp := hn route (h.handed route ha)
    rw [hs q demand hp, ht q demand hp]
    exact h.memo q demand hq hn
  · have hapart := (Path.apart_append_left path _ _).mpr (hr r hd).2
    obtain ⟨hfs, hft⟩ := h.fresh r (hr r hd).1
    exact ⟨hfs.of_sameOutside hs hapart, hft.of_sameOutside ht hapart⟩

private theorem Paired.tell_left (h : Paired path handed ahead s t) (mood : Mood) (event : Event) :
    Paired path handed ahead (s.tell mood event) t := by
  unfold State.tell
  split
  · exact h
  · exact ⟨h.lifetimes, h.memo, h.handed, h.fresh⟩

private theorem Paired.tell (h : Paired path handed ahead s t) (mood : Mood)
    (event event' : Event) : Paired path handed ahead (s.tell mood event) (t.tell mood event') := by
  unfold State.tell
  split
  · exact h
  · exact ⟨h.lifetimes, h.memo, h.handed, h.fresh⟩

private theorem Paired.declare (h : Paired path handed ahead s t) (var : Local)
    (lifetime : Lifetime) :
    Paired path handed ahead (s.declare var lifetime) (t.declare var lifetime) := by
  refine ⟨?_, h.memo, h.handed, h.fresh⟩
  simp only [State.declare, h.lifetimes]

end State

/-- Nothing that is imposed inside leaves what is imposed outside. -/
theorem Mood.within_default (mood : Mood) : Mood.within {} mood = mood := by
  obtain ⟨quiet, region⟩ := mood
  cases region <;> rfl

/-- The endings of a strict visit and of a lax one: the same result and lifetimes, and complaints
that compare. Where `known` holds, the strict visit complains more exactly if the scope is narrower
than its target. -/
def Ending.Compared (exact known : Prop) (strict : Scope) (s t : State) :
    Ending Scope → Ending Scope → Prop :=
  Alike
    (fun a s' b t' => a = b ∧ s'.lifetimes = t'.lifetimes ∧
      ∃ more, State.Tallied exact more s t s' t' ∧ (known → more = a.narrowerThan strict))
    (fun s' t' => s'.lifetimes = t'.lifetimes ∧ ∃ more, State.Tallied exact more s t s' t')

namespace Ending.Compared

variable {exact known : Prop} {strict : Scope} {s t : State} {r r' : Ending Scope}

/-- A strict visit and a lax one have the same result. -/
theorem result_eq (h : Ending.Compared exact known strict s t r r') :
    Ending.result r = Ending.result r' := by
  cases h with
  | ok h => exact congrArg Except.ok h.1
  | error h => rfl

/-- A strict visit and a lax one leave the same lifetimes on record. -/
theorem lifetimes_eq (h : Ending.Compared exact known strict s t r r') :
    (Ending.state r).lifetimes = (Ending.state r').lifetimes := by
  cases h with
  | ok h => exact h.2.1
  | error h => exact h.1

/-- The complaints of a strict visit and of a lax one compare one way or the other. -/
theorem tallied (h : Ending.Compared exact known strict s t r r') :
    ∃ more, State.Tallied exact more s t (Ending.state r) (Ending.state r') := by
  cases h with
  | ok h => exact h.2.2.imp fun _ h => h.1
  | error h => exact h.2

end Ending.Compared

/-- Twins run alike, if visits that are handed the target do. -/
theorem Plan.Twin.run {α : Type} (w : Walker) (levels : Nat) (path : Path) (mood : Mood)
    {A : Mode → Expr → Prop} {strict lax : Scope} {handed : Path → Prop}
    {Q : α → (Path → Prop) → Bool → Prop} {exact : Prop}
    (he : exact ↔ lax = .unused ∧ mood.quiet = false)
    (hv : ∀ route e block mode s t, s.lifetimes = t.lifetimes → s.Fresh (path ++ route) →
      t.Fresh (path ++ route) → Ending.Compared exact (A mode e) strict s t
        (w.visit levels mood (path ++ route) (.expr e) ⟨block, mode, strict⟩ s)
        (w.visit levels mood (path ++ route) (.expr e) ⟨block, mode, lax⟩ t))
    {ahead : Path → Prop} {more : Bool} {p q : Plan α}
    (h : Twin A strict lax handed Q ahead more p q) {s₀ t₀ s t : State}
    (hp : State.Paired path handed ahead s t) (ht : State.Tallied exact more s₀ t₀ s t) :
    Ending.Alike
      (fun a s' b t' => a = b ∧ s'.lifetimes = t'.lifetimes ∧
        ∃ left more', Q a left more' ∧ State.Tallied exact more' s₀ t₀ s' t')
      (fun s' t' => s'.lifetimes = t'.lifetimes ∧ ∃ more', State.Tallied exact more' s₀ t₀ s' t')
      (p.run (fun route part asked inner => w.visit levels inner (path ++ route) part asked) mood s)
      (q.run (fun route part asked inner => w.visit levels inner (path ++ route) part asked) mood
        t) := by
  induction h generalizing s t with
  | done h => exact .ok ⟨rfl, hp.lifetimes, _, _, h, ht⟩
  | fail cause => exact .error ⟨hp.lifetimes, _, ht⟩
  | @same ahead more route node demand inner next next' hr hn ih =>
    -- Both runs make one visit from states that agree at its place, so it is one and the same.
    rw [run_visit, run_visit]
    have hs₁ := w.visit_sameOutside levels (inner.within mood) (path ++ route) node demand s
    have ht₁ := w.visit_sameOutside levels (inner.within mood) (path ++ route) node demand t
    have ha := w.visit_agree levels (inner.within mood) (path ++ route) node demand (hp.agree hr)
    generalize w.visit levels (inner.within mood) (path ++ route) node demand s = x at hs₁ ha
    generalize w.visit levels (inner.within mood) (path ++ route) node demand t = y at ht₁ ha
    cases ha with
    | ok ha =>
      obtain ⟨rfl, ha⟩ := ha
      exact ih _ (hp.same hr ha.agree hs₁ ht₁) (ht.echo ha)
    | error ha => exact .error ⟨ha.agree.lifetimes, _, ht.echo ha⟩
  | @hand ahead ahead' more route e block mode next next' hroute hr hn ih =>
    -- The place was still ahead, so nothing is remembered there and the visits compare by `hv`.
    rw [run_visit, run_visit, Mood.within_default]
    obtain ⟨hfs, hft⟩ := hp.fresh route hroute
    have hs₁ := w.visit_sameOutside levels mood (path ++ route) (.expr e) ⟨block, mode, strict⟩ s
    have ht₁ := w.visit_sameOutside levels mood (path ++ route) (.expr e) ⟨block, mode, lax⟩ t
    have ha := hv route e block mode s t hp.lifetimes hfs hft
    generalize w.visit levels mood (path ++ route) (.expr e) ⟨block, mode, strict⟩ s = x at hs₁ ha
    generalize w.visit levels mood (path ++ route) (.expr e) ⟨block, mode, lax⟩ t = y at ht₁ ha
    cases ha with
    | ok ha =>
      obtain ⟨rfl, hl, more', hm, hk⟩ := ha
      refine ih _ (more || more') (fun hA => by rw [hk hA]) (hp.hand hroute hr hl hs₁ ht₁) ?_
      exact ht.trans hm
    | error ha =>
      obtain ⟨hl, more', hm⟩ := ha
      exact .error ⟨hl, _, ht.trans hm⟩
  | lookup hn ih =>
    rw [run_lookup, run_lookup, hp.lifetimes]
    exact ih _ hp ht
  | @declare ahead more var lifetime next next' hn ih =>
    refine ih (hp.declare var lifetime) ?_
    obtain ⟨xs, ys, hs, ht, hx⟩ := ht
    exact ⟨_, _, hs.trans (s.extends_declare var lifetime),
      ht.trans (t.extends_declare var lifetime), hx.append_same _⟩
  | report hn ih => exact ih (hp.tell mood _ _) (ht.tell mood _)
  | hint hn ih => exact ih (hp.tell mood _ _) (ht.tell mood _)
  | @complain ahead more finding p q hn ih =>
    rw [run_report]
    refine ih (hp.tell_left mood _) (ht.report (fun hx => (he.mp hx).2) _ ?_ (.inl rfl))
    simpa using State.Extends.refl t
  | @restate ahead more finding finding' p q hs hl hn ih =>
    rw [run_report, run_report]
    refine ih (hp.tell mood _ _) (ht.report (fun hx => (he.mp hx).2) _ (t.extends_tell mood _) ?_)
    exact .inr ⟨fun hx => hl (he.mp hx).1, _, hs.symm, rfl⟩

end RefLifetime
