import Mathlib.Data.Set.Insert
import RefLifetime.Proofs.Silence

/-!
# What is read off an expression

`Walker.Reads` says what a visit of an expression answers and reports, at any place of which nothing
is remembered. `Walker.Yields` says the same of a plan, together with the steps that the plan takes
into its node: what was not remembered of the other steps is not remembered afterwards. So plans
that take different steps can follow each other (`Yields.bind`), and what the rule of an expression
yields is what is read off the expression (`Reads.of_rule`).
-/

namespace RefLifetime

/-- Nothing but diagnostics has been added, as far as lifetimes and diagnostics go. -/
structure State.Adds (ds : List Diagnostic) (s t : State) : Prop where
  lifetimes : t.lifetimes = s.lifetimes
  diagnostics : t.journal.diagnostics.toList = s.journal.diagnostics.toList ++ ds

namespace State.Adds

variable {ds ds' : List Diagnostic} {s t u : State}

private theorem refl (s : State) : s.Adds [] s := ⟨rfl, (List.append_nil _).symm⟩

/-- What is added on two stretches of a walk is added one after the other. -/
theorem trans (h : s.Adds ds t) (h' : t.Adds ds' u) : s.Adds (ds ++ ds') u where
  lifetimes := h'.lifetimes.trans h.lifetimes
  diagnostics := by rw [h'.diagnostics, h.diagnostics, List.append_assoc]

private theorem note (s : State) (event : Event) : s.Adds event.diagnostic?.toList (s.note event) :=
  ⟨rfl, Journal.diagnostics_push _ _⟩

end State.Adds

namespace Walker

variable (w : Walker)

/-- Nothing can be recalled of what stands at `path` or below it. -/
def Unaware (path : Path) (s : State) : Prop := w.memoizes = true → s.Fresh path

namespace Unaware

variable {w} {path : Path} {s t : State}

private theorem remembered (h : w.Unaware path s) (demand : Demand) (quiet : Bool) :
    w.remembered s path demand quiet = none := by
  cases hw : w.memoizes with
  | true => exact w.remembered_fresh (h hw) demand quiet
  | false => simp [Walker.remembered, hw]

private theorem of_memo (h : w.Unaware path s) (hm : t.memo = s.memo) : w.Unaware path t :=
  fun hw => (h hw).of_memo hm

/-- Of what is below nothing can be recalled either. -/
theorem part (h : w.Unaware path s) (route : Path) : w.Unaware (path ++ route) s :=
  fun hw => (h hw).part route

end Unaware

/-- While `recorded` is on record, the expression answers the demand with `scope` and reports `ds`,
wherever it stands. -/
def Reads (levels : Nat) (mood : Mood) (recorded : Lifetimes) (e : Expr) (demand : Demand)
    (scope : Scope) (ds : List Diagnostic) : Prop :=
  ∀ path s, w.Unaware path s → s.lifetimes = recorded →
    ∃ t, w.visit levels mood path (.expr e) demand s = .ok scope t ∧ s.Adds ds t

/-- While `recorded` is on record, the plan ends with `a` and reports `ds`. It looks into no other
parts of its node than those that `steps` lead to. -/
def Yields {α : Type} (levels : Nat) (mood : Mood) (path : Path) (recorded : Lifetimes)
    (steps : Set Step) (p : Plan α) (a : α) (ds : List Diagnostic) : Prop :=
  ∀ s, s.lifetimes = recorded → (∀ step ∈ steps, w.Unaware (path ++ [step]) s) →
    ∃ t, w.carryOut levels mood path p s = .ok a t ∧ s.Adds ds t ∧
      ∀ step, step ∉ steps → w.Unaware (path ++ [step]) s → w.Unaware (path ++ [step]) t

section Rules

variable {w} {levels : Nat} {mood : Mood} {path : Path} {recorded : Lifetimes} {α β : Type}

/-- What the rule for an expression yields, wherever it is carried out, is what the expression
reads. -/
theorem Reads.of_rule {e : Expr} {demand : Demand} {scope : Scope} {ds : List Diagnostic}
    (h : ∀ path, ∃ steps,
      w.Yields levels mood path recorded steps (Rule.expr w.setting e demand) scope ds) :
    w.Reads (levels + 1) mood recorded e demand scope ds := by
  intro path s hs hl
  have hnoted := State.Adds.note s (.visited path demand mood.quiet false)
  obtain ⟨steps, hrule⟩ := h path
  obtain ⟨t, hrun, hadds, -⟩ := hrule _ (hnoted.lifetimes.trans hl) fun step _ =>
    (hs.of_memo rfl).part [step]
  refine ⟨t.remember path demand ⟨scope, mood.quiet⟩, ?_, ?_⟩
  · rw [w.visit_computed (hs.remembered demand mood.quiet), compute_succ]
    exact congrArg (Ending.andThen · _) hrun
  · exact ⟨(hnoted.trans hadds).lifetimes, (hnoted.trans hadds).diagnostics⟩

namespace Yields

variable {A B : Set Step} {p : Plan α} {a : α} {ds ds' : List Diagnostic}

/-- A result that is there yields itself. -/
theorem pure (a : α) : w.Yields levels mood path recorded ∅ (return a) a [] :=
  fun s _ _ => ⟨s, rfl, .refl s, fun _ _ h => h⟩

private theorem mono (hp : w.Yields levels mood path recorded A p a ds) (h : A ⊆ B) :
    w.Yields levels mood path recorded B p a ds := by
  intro s hl hs
  obtain ⟨t, ht, hst, hframe⟩ := hp s hl fun step hstep => hs step (h hstep)
  exact ⟨t, ht, hst, fun step hstep => hframe step fun hA => hstep (h hA)⟩

/-- In sequence, what two plans report is put together, if they look into different parts. -/
theorem bind {f : α → Plan β} {b : β} (hp : w.Yields levels mood path recorded A p a ds)
    (hf : w.Yields levels mood path recorded B (f a) b ds') (hd : ∀ step ∈ A, step ∉ B) :
    w.Yields levels mood path recorded (A ∪ B) (p >>= f) b (ds ++ ds') := by
  intro s hl hs
  obtain ⟨t, ht, hst, hframe⟩ := hp s hl fun step hstep => hs step (.inl hstep)
  have hB (step : Step) (hstep : step ∈ B) : w.Unaware (path ++ [step]) t :=
    hframe step (fun hA => hd step hA hstep) (hs step (.inr hstep))
  obtain ⟨u, hu, htu, hframe'⟩ := hf t (hst.lifetimes.trans hl) hB
  refine ⟨u, ?_, hst.trans htu, fun step hstep h => ?_⟩
  · rw [carryOut_bind, ht]
    exact hu
  · rw [Set.mem_union, not_or] at hstep
    exact hframe' step hstep.2 (hframe step hstep.1 h)

/-- The same if the first plan reports nothing. -/
theorem skip {f : α → Plan β} {b : β} (hp : w.Yields levels mood path recorded A p a [])
    (hf : w.Yields levels mood path recorded B (f a) b ds) (hd : ∀ step ∈ A, step ∉ B) :
    w.Yields levels mood path recorded (A ∪ B) (p >>= f) b ds :=
  hp.bind hf hd

/-- What is made of a result needs no further look. -/
theorem map {f : α → Plan β} {b : β} (hp : w.Yields levels mood path recorded A p a ds)
    (hf : f a = return b) : w.Yields levels mood path recorded A (p >>= f) b ds := by
  have h : w.Yields levels mood path recorded (A ∪ ∅) (p >>= f) b (ds ++ []) :=
    hp.bind (hf ▸ pure b) fun _ _ => Set.notMem_empty _
  rwa [Set.union_empty, List.append_nil] at h

/-- A result that is not used is reported on all the same. -/
theorem discard (hp : w.Yields levels mood path recorded A p a ds) :
    w.Yields levels mood path recorded A (Functor.discard p) () ds := by
  have h := hp.map (f := fun _ => return ()) (b := ()) rfl
  rwa [← map_eq_pure_bind] at h

private theorem visit {e : Expr} {demand : Demand} {scope : Scope} {inner : Mood}
    (h : w.Reads levels (inner.within mood) recorded e demand scope ds) (step : Step)
    (rest : Path) :
    w.Yields levels mood path recorded {step}
      (Plan.visit (step :: rest) (.expr e) demand inner .done) scope ds := by
  intro s hl hs
  have hpath : path ++ step :: rest = path ++ [step] ++ rest := by simp
  have hfresh : w.Unaware (path ++ step :: rest) s := hpath ▸ (hs step rfl).part rest
  obtain ⟨t, ht, hst⟩ := h _ s hfresh hl
  refine ⟨t, ?_, hst, fun other hother hu hw => ?_⟩
  · rw [carryOut, Plan.run_visit, ht]
    rfl
  · have hapart : Path.Apart (path ++ step :: rest) (path ++ [other]) :=
      Path.apart_of_step_ne path (Ne.symm hother) rest []
    exact (hu hw).of_sameOutside (w.sameOutside_of_visit ht) hapart

/-- To evaluate a part yields what the part reads. -/
theorem evaluate {e : Expr} {demand : Demand} {scope : Scope}
    (h : w.Reads levels mood recorded e demand scope ds) (step : Step) (rest : Path) :
    w.Yields levels mood path recorded {step} (Plan.evaluate (step :: rest) e demand) scope ds :=
  visit (by rwa [Mood.within_default]) step rest

/-- To evaluate a part quietly yields what it reads in the hushed mood. -/
theorem evaluateQuietly {e : Expr} {demand : Demand} {scope : Scope}
    (h : w.Reads levels mood.hushed recorded e demand scope ds) (step : Step) (rest : Path) :
    w.Yields levels mood path recorded {step} (Plan.evaluateQuietly (step :: rest) e demand) scope
      ds :=
  visit (by rwa [Mood.within_quiet]) step rest

/-- Without memory it does not matter which steps are taken. -/
theorem of_forgetful (hw : w.memoizes = false) (hp : w.Yields levels mood path recorded A p a ds) :
    w.Yields levels mood path recorded B p a ds := by
  have hu (path : Path) (s : State) : w.Unaware path s := by simp [Unaware, hw]
  intro s hl _
  obtain ⟨t, ht, hst, -⟩ := hp s hl fun step _ => hu _ s
  exact ⟨t, ht, hst, fun step _ _ => hu _ t⟩

/-- A look-up finds what is on record. -/
theorem lookup {id : Nat} {next : Option Lifetime → Plan α}
    (h : w.Yields levels mood path recorded A (next (recorded.get? id)) a ds) :
    w.Yields levels mood path recorded A (.lookup id next) a ds := by
  rintro s rfl hs
  exact h s rfl hs

/-- A conditional report is made aloud where its condition holds. -/
theorem reportIf (hq : mood.quiet = false) (violated : Bool) (finding : Finding) :
    w.Yields levels mood path recorded ∅ (Plan.reportIf violated finding) ()
      (if violated then [finding.inRegion mood.region] else []) := by
  intro s hl hs
  cases violated with
  | false => exact pure () s hl hs
  | true =>
    have htell : s.tell mood (.reported (finding.inRegion mood.region)) =
        s.note (.reported (finding.inRegion mood.region)) := by simp [State.tell, hq]
    refine ⟨_, rfl, ?_, fun _ _ h => ?_⟩
    · change s.Adds [finding.inRegion mood.region] (s.tell mood _)
      rw [htell]
      exact .note s (.reported (finding.inRegion mood.region))
    · change w.Unaware _ (s.tell mood _)
      rw [htell]
      exact h.of_memo rfl

/-- To settle a demand aloud reports the finding exactly if the scope is narrower than demanded. -/
theorem settle (hq : mood.quiet = false) (demand : Demand) (scope : Scope) (finding : Finding) :
    w.Yields levels mood path recorded ∅ (Plan.settle demand scope finding) scope
      (if scope.narrowerThan demand.target then [finding.inRegion mood.region] else []) :=
  (reportIf hq _ finding).map rfl

/-- A scope that is narrower than demanded is reported. -/
theorem settle_of_narrower (hq : mood.quiet = false) {demand : Demand} {scope : Scope}
    (h : scope.narrowerThan demand.target = true) (finding : Finding) :
    w.Yields levels mood path recorded ∅ (Plan.settle demand scope finding) scope
      [finding.inRegion mood.region] := by
  have hsettle : w.Yields levels mood path recorded ∅ (Plan.settle demand scope finding) scope
      (if scope.narrowerThan demand.target then [finding.inRegion mood.region] else []) :=
    settle hq demand scope finding
  rwa [if_pos h] at hsettle

/-- A scope that is not narrower than demanded is passed in any mood. -/
theorem settle_of_convertible {demand : Demand} {scope : Scope}
    (h : scope.narrowerThan demand.target = false) (finding : Finding) :
    w.Yields levels mood path recorded ∅ (Plan.settle demand scope finding) scope [] := by
  unfold Plan.settle Plan.reportIf
  rw [h]
  exact pure scope

/-- In a quiet mood every scope is passed. -/
theorem settle_of_quiet (hq : mood.quiet = true) (demand : Demand) (scope : Scope)
    (finding : Finding) :
    w.Yields levels mood path recorded ∅ (Plan.settle demand scope finding) scope [] := by
  unfold Plan.settle Plan.reportIf
  split
  · intro s _ _
    refine ⟨s, ?_, .refl s, fun _ _ h => h⟩
    change EStateM.Result.ok scope (s.tell mood _) = _
    rw [s.tell_quiet hq]
  · exact pure scope

/-- For each member of a list the plan takes a step of its own. -/
theorem forEach {f : Nat → α → Plan β} {items : List α} {mk : Nat → Step}
    (hmk : ∀ i j, mk i = mk j → i = j) {result : α → β} {reports : α → List Diagnostic}
    (h : ∀ i, ∀ item ∈ items,
      w.Yields levels mood path recorded {mk i} (f i item) (result item) (reports item))
    (start : Nat) :
    w.Yields levels mood path recorded {step | ∃ i, start ≤ i ∧ step = mk i}
      (Plan.forEach f items start) (items.map result) (items.flatMap reports) := by
  induction items generalizing start with
  | nil => exact (pure []).mono (Set.empty_subset _)
  | cons item rest ih =>
    obtain ⟨hfirst, hrest⟩ :
        (∀ i, w.Yields levels mood path recorded {mk i} (f i item) (result item) (reports item)) ∧
        ∀ i, ∀ other ∈ rest, w.Yields levels mood path recorded {mk i} (f i other) (result other)
          (reports other) :=
      ⟨fun i => h i item (by simp), fun i other ho => h i other (by simp [ho])⟩
    have hlater := (ih hrest (start + 1)).map
      (f := fun results => return result item :: results) (b := result item :: rest.map result) rfl
    have happart : ∀ step ∈ ({mk start} : Set Step),
        step ∉ {step | ∃ i, start + 1 ≤ i ∧ step = mk i} := by
      rintro _ rfl ⟨i, hi, heq⟩
      cases hmk start i heq
      omega
    refine ((hfirst start).bind hlater happart).mono ?_
    rintro step (rfl | ⟨i, hi, rfl⟩)
    · exact ⟨start, Nat.le_refl _, rfl⟩
    · exact ⟨i, by omega, rfl⟩

/-- To evaluate a list of parts yields what each of them reads, in order, if their steps differ. -/
theorem evaluateAll {es : List Expr} {demand : Demand} {mk : Nat → Step}
    (hmk : ∀ i j, mk i = mk j → i = j) {result : Expr → Scope} {reports : Expr → List Diagnostic}
    (h : ∀ e ∈ es, w.Reads levels mood recorded e demand (result e) (reports e)) :
    w.Yields levels mood path recorded {step | ∃ i, 0 ≤ i ∧ step = mk i}
      (Plan.evaluateAll mk es demand) (es.map result) (es.flatMap reports) :=
  forEach hmk (fun i e he => evaluate (h e he) (mk i) []) 0

end Yields

/-- A literal may be carried anywhere, and there is nothing to report. -/
theorem literal_reads {e : Expr} (he : e.form = .literal) (demand : Demand) :
    w.Reads (levels + 1) mood recorded e demand .callingMethod [] := by
  refine .of_rule fun path => ⟨∅, ?_⟩
  unfold Rule.expr
  rw [he]
  exact .pure _

end Rules

end Walker

end RefLifetime
