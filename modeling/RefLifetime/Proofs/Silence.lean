import RefLifetime.Proofs.Counters
import RefLifetime.Proofs.Narrowing

/-!
# Silence

A visit is silent if it reports nothing. A rule is silent if all its visits are and it reports
nothing itself, so whether an expression is silent can be told from its parts. A visit that is
silent under one target is silent under every narrower one, and that of an accountable expression is
silent exactly if it is silent without a requirement and its answer meets the target.
-/

namespace RefLifetime

namespace State

/-- Nothing was reported on the way from `s` to `t`. -/
def Silent (s t : State) : Prop := t.journal.diagnostics = s.journal.diagnostics

variable {s t u : State}

/-- Whether anything was reported depends on the diagnostics only. -/
theorem silent_congr (h : t.journal.diagnostics = u.journal.diagnostics) :
    s.Silent t ↔ s.Silent u := by
  rw [Silent, Silent, h]

/-- Nothing was reported exactly if no diagnostic was added. -/
theorem silent_iff_nil {ds : List Diagnostic}
    (h : t.journal.diagnostics.toList = s.journal.diagnostics.toList ++ ds) :
    s.Silent t ↔ ds = [] := by
  constructor
  · intro hs
    rw [hs] at h
    exact List.append_right_eq_self.mp h.symm
  · rintro rfl
    rw [List.append_nil] at h
    exact congrArg Diagnostics.mk h

/-- Nothing is reported on the way exactly if nothing is on either stretch of it. -/
theorem Grows.silent_iff (h : s.Grows t) (h' : t.Grows u) :
    s.Silent u ↔ s.Silent t ∧ t.Silent u := by
  obtain ⟨ds, hd⟩ := h.diagnostics
  obtain ⟨ds', hd'⟩ := h'.diagnostics
  have hu : u.journal.diagnostics.toList = s.journal.diagnostics.toList ++ (ds ++ ds') := by
    rw [← hd', ← hd, List.append_assoc]
  rw [silent_iff_nil hu, silent_iff_nil hd.symm, silent_iff_nil hd'.symm, List.append_eq_nil_iff]

/-- Where something is reported, there are more diagnostics afterwards. -/
theorem Grows.size_lt (h : s.Grows t) (hs : ¬ s.Silent t) :
    s.journal.diagnostics.size < t.journal.diagnostics.size := by
  obtain ⟨ds, hd⟩ := h.diagnostics
  rw [silent_iff_nil hd.symm] at hs
  have hpos := List.length_pos_iff.mpr hs
  simp only [Diagnostics.size, ← hd, List.length_append]
  omega

/-- A report that is made aloud is heard. -/
theorem not_silent_reported {mood : Mood} (hq : mood.quiet = false) (s : State) (d : Diagnostic) :
    ¬ s.Silent (s.tell mood (.reported d)) := by
  have h : (s.tell mood (.reported d)).journal.diagnostics.toList =
      s.journal.diagnostics.toList ++ [d] := by
    simp [tell, hq, note, Journal.diagnostics_push, Event.diagnostic?]
  rw [silent_iff_nil h]
  simp

/-- Nothing is remembered about the parts of what nothing is remembered about. -/
theorem Fresh.part {path : Path} (h : s.Fresh path) (route : Path) : s.Fresh (path ++ route) :=
  fun q demand hq => h q demand ((List.prefix_append path route).trans hq)

end State

/-- Two steps in sequence succeed exactly if the first does, and then the second from where it
ended. -/
theorem Ending.andThen_eq_ok {α β : Type} {r : Ending α} {f : α → State → Ending β} {b : β}
    {t : State} : r.andThen f = .ok b t ↔ ∃ a s, r = .ok a s ∧ f a s = .ok b t := by
  cases r with
  | ok a s =>
    constructor
    · intro h
      exact ⟨a, s, rfl, h⟩
    · rintro ⟨_, _, h, hf⟩
      cases h
      exact hf
  | error cause s =>
    constructor
    · intro h
      cases h
    · rintro ⟨_, _, h, -⟩
      cases h

/-- The mood in which a part is read that another visit reports on. -/
def Mood.hushed (mood : Mood) : Mood := { mood with quiet := true }

/-- To be quiet inside a mood is to hush it. -/
theorem Mood.within_quiet (mood : Mood) : Mood.within { quiet := true } mood = mood.hushed := by
  obtain ⟨quiet, region⟩ := mood
  cases region <;> rfl

namespace Walker

variable (w : Walker)

section CarryOut

variable {α : Type} (levels : Nat) (mood : Mood) (path route : Path) (e : Expr) (demand : Demand)
  (f : Scope → Plan α) (s : State)

/-- A rule that begins with the evaluation of a part goes on with the answer. -/
theorem carryOut_evaluate :
    w.carryOut levels mood path (Plan.evaluate route e demand >>= f) s =
      Ending.andThen (w.visit levels mood (path ++ route) (.expr e) demand s)
        fun scope t => w.carryOut levels mood path (f scope) t := by
  have h := Plan.run_visit
    (fun route part asked inner => w.visit levels inner (path ++ route) part asked) mood s route
    (.expr e) demand {} f
  rwa [Mood.within_default] at h

/-- The same for a part that is evaluated quietly. -/
theorem carryOut_evaluateQuietly :
    w.carryOut levels mood path (Plan.evaluateQuietly route e demand >>= f) s =
      Ending.andThen (w.visit levels mood.hushed (path ++ route) (.expr e) demand s)
        fun scope t => w.carryOut levels mood path (f scope) t := by
  have h := Plan.run_visit
    (fun route part asked inner => w.visit levels inner (path ++ route) part asked) mood s route
    (.expr e) demand { quiet := true } f
  rwa [Mood.within_quiet] at h

/-- A rule that begins with another plan goes on from where that ended. -/
theorem carryOut_bind {β : Type} (p : Plan β) (g : β → Plan α) :
    w.carryOut levels mood path (p >>= g) s =
      Ending.andThen (w.carryOut levels mood path p s)
        fun b t => w.carryOut levels mood path (g b) t := by
  unfold carryOut
  rw [Plan.run_bind, Walk.bind_apply]

end CarryOut

section Outcome

variable {levels : Nat} {mood : Mood} {path : Path} {node : Node} {demand : Demand} {s t : State}
  {scope : Scope}

/-- A visit remembers nothing outside its own place. -/
theorem sameOutside_of_visit
    (hv : w.visit levels mood path node demand s = .ok scope t) : s.SameOutside path t := by
  have hso := w.visit_sameOutside levels mood path node demand s
  rwa [hv] at hso

/-- The visit of one part leaves another unremembered. -/
theorem fresh_sibling {a b : Step} (hne : a ≠ b) (hs : s.Fresh (path ++ [b]))
    (hv : w.visit levels mood (path ++ [a]) node demand s = .ok scope t) :
    t.Fresh (path ++ [b]) :=
  hs.of_sameOutside (w.sameOutside_of_visit hv) (Path.apart_of_step_ne path hne [] [])

/-- A visit continues the journal. -/
theorem grows_of_visit (hv : w.visit levels mood path node demand s = .ok scope t) :
    s.Grows t := by
  have hg := w.visit_grows levels mood path node demand s
  rwa [hv] at hg

/-- Carrying out a plan continues the journal. -/
theorem carryOut_grows {α : Type} {plan : Plan α} {a : α}
    (h : w.carryOut levels mood path plan s = .ok a t) : s.Grows t := by
  have hg := State.persistent_grows.run mood
    (fun route node asked inner => w.visit_grows levels inner (path ++ route) node asked) plan s
  change State.Grows s (Ending.state (w.carryOut levels mood path plan s)) at hg
  rwa [h] at hg

/-- A hushed visit reports nothing. -/
theorem silent_of_hushed
    (hv : w.visit levels mood.hushed path node demand s = .ok scope t) : s.Silent t := by
  have hf := w.visit_silent levels (rfl : mood.hushed.quiet = true) path node demand s
  rw [hv] at hf
  exact congrArg Diagnostics.mk (congrArg Prod.fst hf)

/-- A quiet visit after a quiet visit recalls the answer. -/
theorem visit_hushed_again (hw : w.memoizes = true) {e : Expr} {u : State}
    (hv : w.visit levels mood.hushed path (.expr e) demand s = .ok scope t) (hm : u.memo = t.memo) :
    ∃ u', w.visit levels mood.hushed path (.expr e) demand u = .ok scope u' := by
  suffices hr : w.remembered u path demand mood.hushed.quiet = some scope from
    ⟨_, visit_recalled w hr⟩
  cases hr : w.remembered s path demand mood.hushed.quiet with
  | some found =>
    rw [visit_recalled w hr] at hv
    cases hv
    simp only [remembered, hm]
    exact hr
  | none =>
    rw [visit_computed w hr, Ending.andThen_eq_ok] at hv
    obtain ⟨found, s', -, h⟩ := hv
    cases h
    simp [remembered, hw, hm, State.remember, Memo.answer?, Memo.get?_insert, Mood.hushed]

/-- A conditional report that is made aloud remembers nothing, and is heard exactly if its condition
holds. -/
theorem carryOut_reportIf (hq : mood.quiet = false) {violated : Bool} {finding : Finding}
    (h : w.carryOut levels mood path (Plan.reportIf violated finding) s = .ok () t) :
    t.memo = s.memo ∧ (s.Silent t ↔ violated = false) := by
  cases violated with
  | false =>
    cases h
    exact ⟨rfl, by simp [State.Silent]⟩
  | true =>
    cases h
    exact ⟨s.memo_tell mood _, by simp [State.not_silent_reported hq s]⟩

end Outcome

/-! ### Visits and rules -/

variable {levels : Nat} {mood : Mood} {path : Path} {e : Expr} {demand : Demand}
  {s s' t t' : State} {scope scope' : Scope}

/-- The visit of an expression that nothing is remembered about carries out its rule. -/
theorem visit_carriesOut (levels : Nat) (mood : Mood) (e : Expr) (demand : Demand)
    (hs : s.Fresh path) :
    Ending.Alike
      (fun a s' b t => a = b ∧ s'.lifetimes = t.lifetimes ∧
        s'.journal.diagnostics = t.journal.diagnostics)
      (fun s' t => s'.lifetimes = t.lifetimes ∧ s'.journal.diagnostics = t.journal.diagnostics)
      (w.visit (levels + 1) mood path (.expr e) demand s)
      (w.carryOut levels mood path (Rule.expr w.setting e demand) s) := by
  let s₁ := s.note (.visited path demand mood.quiet false)
  have hd : s₁.journal.diagnostics.toList = s.journal.diagnostics.toList := by
    simp [s₁, State.note, Journal.diagnostics_push, Event.diagnostic?]
  have hecho : State.Echo path s₁ s s₁ s := State.Agree.echo ⟨rfl, fun _ _ _ => rfl⟩
  have hsame {t t' : State} (h : State.Echo path s₁ s t t') :
      t.lifetimes = t'.lifetimes ∧ t.journal.diagnostics = t'.journal.diagnostics := by
    obtain ⟨events, ht, ht'⟩ := h.events
    have hds : t.journal.diagnostics.toList = t'.journal.diagnostics.toList := by
      rw [ht.diagnostics, ht'.diagnostics, hd]
    exact ⟨h.agree.lifetimes, congrArg Diagnostics.mk hds⟩
  rw [visit_computed w (w.remembered_fresh hs _ _), compute_succ]
  have hrun := w.carryOut_agree levels mood path (Rule.expr w.setting e demand) hecho
  change Ending.Alike _ _ (Ending.andThen
    (w.carryOut levels mood path (Rule.expr w.setting e demand) s₁) _) _
  generalize w.carryOut levels mood path (Rule.expr w.setting e demand) s₁ = r at hrun ⊢
  generalize w.carryOut levels mood path (Rule.expr w.setting e demand) s = r' at hrun ⊢
  cases hrun with
  | ok h => exact .ok ⟨h.1, (hsame h.2).1, (hsame h.2).2⟩
  | error h => exact .error (hsame h)

/-- A first visit reports what its rule reports, carried out from the same state. -/
theorem visit_diagnostics (levels : Nat) (mood : Mood) (e : Expr) (demand : Demand)
    (hs : s.Fresh path) :
    (Ending.state (w.visit (levels + 1) mood path (.expr e) demand s)).journal.diagnostics =
      (Ending.state (w.carryOut levels mood path (Rule.expr w.setting e demand)
        s)).journal.diagnostics := by
  have h := w.visit_carriesOut levels mood e demand hs
  generalize w.visit (levels + 1) mood path (.expr e) demand s = r at h ⊢
  generalize w.carryOut levels mood path (Rule.expr w.setting e demand) s = r' at h ⊢
  cases h with
  | ok h => exact h.2.2
  | error h => exact h.2

/-- Behind a first visit that succeeds there is its rule, carried out from the same state. -/
theorem carryOut_of_visit (hs : s.Fresh path)
    (hv : w.visit (levels + 1) mood path (.expr e) demand s = .ok scope s') :
    ∃ t, w.carryOut levels mood path (Rule.expr w.setting e demand) s = .ok scope t ∧
      s'.lifetimes = t.lifetimes ∧ s'.journal.diagnostics = t.journal.diagnostics := by
  have h := w.visit_carriesOut levels mood e demand hs
  rw [hv] at h
  generalize w.carryOut levels mood path (Rule.expr w.setting e demand) s = r at h ⊢
  cases h with
  | ok h =>
    obtain ⟨rfl, h⟩ := h
    exact ⟨_, rfl, h⟩

/-- A first visit succeeds if its rule does, carried out from the same state. -/
theorem visit_of_carryOut (hs : s.Fresh path)
    (h : w.carryOut levels mood path (Rule.expr w.setting e demand) s = .ok scope t) :
    ∃ s', w.visit (levels + 1) mood path (.expr e) demand s = .ok scope s' ∧
      s'.lifetimes = t.lifetimes ∧ s'.journal.diagnostics = t.journal.diagnostics := by
  have hv := w.visit_carriesOut levels mood e demand hs
  rw [h] at hv
  generalize w.visit (levels + 1) mood path (.expr e) demand s = r at hv ⊢
  cases hv with
  | ok hv =>
    obtain ⟨rfl, hv⟩ := hv
    exact ⟨_, rfl, hv⟩

/-! ### Targets and silence -/

variable {block target : Scope} {mode : Mode}

/-- A visit has the same answer under any target. -/
theorem visit_retargeted (hs : s.Fresh path)
    (hv : w.visit levels mood path (.expr e) ⟨block, mode, target⟩ s = .ok scope s')
    (other : Scope) :
    ∃ t', w.visit levels mood path (.expr e) ⟨block, mode, other⟩ s = .ok scope t' := by
  have hok {r : Ending Scope} (h : Ending.result r = .ok scope) : ∃ t', r = .ok scope t' := by
    cases r with
    | ok a t' =>
      cases h
      exact ⟨t', rfl⟩
    | error cause t' => cases h
  apply hok
  by_cases hle : target ≤ other
  · have hc := w.visit_compared hle levels mood path e block mode (rfl : s.lifetimes = _) hs hs
    rw [← hc.result_eq, hv]
    rfl
  · have hge : other ≤ target := Nat.le_of_lt (Nat.lt_of_not_le hle)
    have hc := w.visit_compared hge levels mood path e block mode (rfl : s.lifetimes = _) hs hs
    rw [hc.result_eq, hv]
    rfl

/-- What is silent under a target is silent under a narrower one. -/
theorem silent_of_le {strict lax : Scope} (hle : strict ≤ lax) (hs : s.Fresh path)
    (hv : w.visit levels mood path (.expr e) ⟨block, mode, strict⟩ s = .ok scope s')
    (hv' : w.visit levels mood path (.expr e) ⟨block, mode, lax⟩ s = .ok scope' t')
    (hsilent : s.Silent s') : s.Silent t' := by
  have hc := w.visit_compared hle levels mood path e block mode (rfl : s.lifetimes = _) hs hs
  rw [hv, hv'] at hc
  obtain ⟨more, xs, ys, hxs, hys, htally⟩ := hc.tallied
  have hx : Event.diagnostics xs = [] := (State.silent_iff_nil hxs.diagnostics).mp hsilent
  apply (State.silent_iff_nil hys.diagnostics).mpr
  have hlen := htally.length_le
  rw [hx] at hlen
  exact List.eq_nil_of_length_eq_zero (Nat.le_zero.mp hlen)

/-- The visit of an accountable expression is silent exactly if it is silent without a requirement
and the answer meets the target. -/
theorem silent_iff_of_accountable (hq : mood.quiet = false)
    (he : e.Accountable w.setting.rules mode) (hs : s.Fresh path)
    (hv : w.visit levels mood path (.expr e) ⟨block, mode, target⟩ s = .ok scope s')
    (hv' : w.visit levels mood path (.expr e) ⟨block, mode, .unused⟩ s = .ok scope' t') :
    s.Silent s' ↔ s.Silent t' ∧ scope.narrowerThan target = false := by
  have hle : target ≤ .unused := target.depth_le_maxDepth
  have hc := w.visit_compared hle levels mood path e block mode (rfl : s.lifetimes = _) hs hs
  rw [hv, hv'] at hc
  cases hc with
  | ok h =>
    obtain ⟨-, -, more, ⟨xs, ys, hxs, hys, htally⟩, hk⟩ := h
    have hmore := hk he
    rw [State.silent_iff_nil hxs.diagnostics, State.silent_iff_nil hys.diagnostics]
    cases hn : scope.narrowerThan target with
    | false =>
      rw [htally.same ⟨rfl, hq⟩ (hmore.trans hn)]
      simp
    | true =>
      have hlonger := htally.longer ⟨rfl, hq⟩ (hmore.trans hn)
      have hne : Event.diagnostics xs ≠ [] := by
        rintro h
        simp [h] at hlonger
      simp [hne]

/-- An accountable expression that is silent under one target is silent under another exactly if the
answer meets that. -/
theorem silent_iff_of_silent {other : Scope} (hq : mood.quiet = false)
    (he : e.Accountable w.setting.rules mode) (hs : s.Fresh path)
    (hv : w.visit levels mood path (.expr e) ⟨block, mode, target⟩ s = .ok scope s')
    (hsilent : s.Silent s')
    (hv' : w.visit levels mood path (.expr e) ⟨block, mode, other⟩ s = .ok scope t') :
    s.Silent t' ↔ scope.narrowerThan other = false := by
  obtain ⟨u, hfree⟩ := w.visit_retargeted hs hv .unused
  have hle : target ≤ .unused := target.depth_le_maxDepth
  rw [w.silent_iff_of_accountable hq he hs hv' hfree]
  exact and_iff_right (w.silent_of_le hle hs hv hfree hsilent)

end Walker

end RefLifetime
