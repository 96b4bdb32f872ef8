import RefLifetime.Proofs.Run

/-!
# Raising the depth limit

One body is walked under two limits, from the same state and step by step. As long as the lower
limit is not reached the two walks cannot be told apart. Where it is reached the first walk stops
with a failure of its own, and the second one goes on from there, so that its journal continues the
journal of the first (`Walker.visit_outlasted`).
-/

namespace RefLifetime

/-- The second walk lasts at least as long as the first: they end in the same way, or the first one
ran out of levels and the journal of the second continues the first one's. -/
inductive Ending.Outlasted {α : Type} : Ending α → Ending α → Prop
  | same (r : Ending α) : Outlasted r r
  | cut {limit : Nat} {span : Span} {s : State} {r : Ending α} (h : s.Grows (Ending.state r)) :
      Outlasted (.error (.depthExceeded limit span) s) r

namespace Ending.Outlasted

variable {α β : Type} {r r' : Ending α} {f g : α → State → Ending β}

/-- What follows a walk that was cut short only adds to the longer journal. -/
theorem andThen (h : Outlasted r r') (hf : ∀ a s, Outlasted (f a s) (g a s))
    (hg : ∀ a s, State.Grows s (Ending.state (g a s))) :
    Outlasted (r.andThen f) (r'.andThen g) := by
  cases h with
  | same =>
    cases r with
    | ok a s => exact hf a s
    | error failure s => exact .same _
  | cut h =>
    apply Outlasted.cut
    exact State.persistent_grows.andThen h hg

end Ending.Outlasted

open Ending (Outlasted)

/-- A plan is carried out under two limits: if its visits compare so, the whole run does. -/
theorem Plan.run_outlasted {α : Type} {visit visit' : Visitor} (mood : Mood)
    (hv : ∀ route node demand inner s,
      Outlasted (visit route node demand inner s) (visit' route node demand inner s))
    (hg : ∀ route node demand inner s,
      State.Grows s (Ending.state (visit' route node demand inner s)))
    (p : Plan α) (s : State) : Outlasted (p.run visit mood s) (p.run visit' mood s) := by
  induction p generalizing s with
  | done a => exact .same _
  | fail cause => exact .same _
  | visit route node demand inner next ih =>
    rw [run_visit, run_visit]
    apply (hv route node demand (inner.within mood) s).andThen ih
    intro scope s'
    exact State.persistent_grows.run mood hg (next scope) s'
  | lookup id next ih => exact ih _ s
  | declare var lifetime next ih => exact ih (s.declare var lifetime)
  | report finding next ih => exact ih (s.tell mood _)
  | hint id next ih => exact ih (s.tell mood _)

namespace Walker

variable (w : Walker)

/-- The same walker under another limit. -/
def withLimit (limit : Nat) : Walker := { w with limit := limit }

private theorem visit_outlasted_of_compute {limit levels levels' : Nat} {mood : Mood} {path : Path}
    {node : Node} {demand : Demand}
    (hc : ∀ s, Outlasted (w.compute levels mood path node demand s)
      ((w.withLimit limit).compute levels' mood path node demand s)) (s : State) :
    Outlasted (w.visit levels mood path node demand s)
      ((w.withLimit limit).visit levels' mood path node demand s) := by
  cases node with
  | stmt st =>
    rw [visit_stmt, visit_stmt]
    exact hc s
  | expr e =>
    -- What is remembered depends on the state alone, not on the limit.
    have hr : (w.withLimit limit).remembered s path demand mood.quiet =
        w.remembered s path demand mood.quiet := rfl
    cases hm : w.remembered s path demand mood.quiet with
    | some scope =>
      rw [visit_recalled w hm, visit_recalled _ (hr.trans hm)]
      exact .same _
    | none =>
      rw [visit_computed w hm, visit_computed _ (hr.trans hm)]
      apply (hc _).andThen
      · intro scope s'
        exact .same _
      · intro scope s'
        exact ⟨[], State.Extends.refl s'⟩

/-- With more levels to go, a visit ends as it did before, unless it was cut short. -/
theorem visit_outlasted (limit levels more : Nat) (mood : Mood) (path : Path) (node : Node)
    (demand : Demand) (s : State) :
    Outlasted (w.visit levels mood path node demand s)
      ((w.withLimit limit).visit (levels + more) mood path node demand s) := by
  induction levels generalizing mood path node demand s with
  | zero =>
    apply visit_outlasted_of_compute
    intro s
    rw [compute_zero]
    apply Outlasted.cut
    cases more with
    | zero => exact ⟨[], State.Extends.refl s⟩
    | succ more =>
      rw [Nat.zero_add, compute_succ]
      apply State.persistent_grows.run
      intro route part asked inner s
      exact (w.withLimit limit).visit_grows more inner (path ++ route) part asked s
  | succ levels ih =>
    apply visit_outlasted_of_compute
    intro s
    rw [Nat.succ_add, compute_succ, compute_succ]
    apply Plan.run_outlasted
    · intro route part asked inner s
      exact ih inner (path ++ route) part asked s
    · intro route part asked inner s
      exact (w.withLimit limit).visit_grows (levels + more) inner (path ++ route) part asked s

private theorem walkBody_outlasted {limit : Nat} (h : w.limit ≤ limit) (body : List Stmt)
    (s : State) : Outlasted (w.walkBody body s) ((w.withLimit limit).walkBody body s) := by
  have hl : limit = w.limit + (limit - w.limit) := by omega
  apply Plan.run_outlasted
  · intro route part asked inner s
    change Outlasted (w.visit w.limit inner route part asked s)
      ((w.withLimit limit).visit limit inner route part asked s)
    have hv := w.visit_outlasted limit w.limit (limit - w.limit) inner route part asked s
    rwa [← hl] at hv
  · intro route part asked inner s
    exact (w.withLimit limit).visit_grows limit inner route part asked s

/-- An analysis that was not cut short gives the same report under a higher limit, and one that was
has reported a beginning of what is reported under the higher limit. -/
theorem analyze_outlasted {limit : Nat} (h : w.limit ≤ limit) (body : List Stmt) :
    (w.withLimit limit).analyze body = w.analyze body ∨
      (∃ reached span, (w.analyze body).result = .error (.depthExceeded reached span)) ∧
        (w.analyze body).diagnostics.toList <+:
          ((w.withLimit limit).analyze body).diagnostics.toList := by
  have hw := w.walkBody_outlasted h body w.initial
  have hi : (w.withLimit limit).initial = w.initial := rfl
  unfold analyze EStateM.run
  rw [hi]
  generalize w.walkBody body w.initial = r at hw ⊢
  generalize (w.withLimit limit).walkBody body w.initial = r' at hw ⊢
  cases hw with
  | same => exact .inl rfl
  | @cut reached span s _ hg =>
    refine .inr ⟨⟨reached, span, rfl⟩, ?_⟩
    cases r' with
    | error failure s' => exact hg.diagnostics
    | ok a s' =>
      exact (State.persistent_grows.trans hg (State.persistent_grows.note s' _)).diagnostics

end Walker

/-- Raising the depth limit never changes an analysis that was completed: the result and the
diagnostics stay the same. What an analysis reported before it was cut short is the beginning of
what it reports under the higher limit. -/
theorem analyzeInto_limit_raised (earlier : Diagnostics) (body : Body) (rules : Rules)
    {limit limit' : Nat} (h : limit ≤ limit') :
    ((∀ reached span, (analyzeInto earlier body ⟨rules, limit⟩).1 ≠
        .error (.depthExceeded reached span)) →
      analyzeInto earlier body ⟨rules, limit'⟩ = analyzeInto earlier body ⟨rules, limit⟩) ∧
    ∀ reached span, (analyzeInto earlier body ⟨rules, limit⟩).1 =
        .error (.depthExceeded reached span) →
      ∃ added added',
        (analyzeInto earlier body ⟨rules, limit⟩).2.toList = earlier.toList ++ added ∧
        (analyzeInto earlier body ⟨rules, limit'⟩).2.toList = earlier.toList ++ added' ∧
        added <+: added' := by
  let w : Walker := { setting := ⟨rules, body.method⟩, limit := limit }
  have hw := w.analyze_outlasted (h : w.limit ≤ limit') body.stmts
  constructor
  · intro hn
    rcases hw with hw | ⟨⟨reached, span, hr⟩, -⟩
    · change (((w.withLimit limit').analyze body.stmts).result,
        earlier ++ ((w.withLimit limit').analyze body.stmts).diagnostics) = _
      rw [hw]
      rfl
    · exact absurd hr (hn reached span)
  · intro reached span _
    refine ⟨_, _, rfl, rfl, ?_⟩
    rcases hw with hw | ⟨-, hp⟩
    · change (w.analyze body.stmts).diagnostics.toList <+:
        ((w.withLimit limit').analyze body.stmts).diagnostics.toList
      exact ⟨[], by rw [hw, List.append_nil]⟩
    · exact hp

/-- A stack value is returned before an operand that is nested too deeply for the lower limit. -/
theorem analyzeInto_limit_raised_operand :
    let f : Method := { name := "f", returnTy := .span .int, span := default }
    let zero : Expr := ⟨.literal, .int, default⟩
    let body : Body :=
      ⟨f, [.ret (some ⟨.collection [], .span .int, .onLine 2 8 10⟩),
        .eval ⟨.unary zero, .int, default⟩, .ret (some ⟨.collection [], .span .int, default⟩)]⟩
    (analyzeInto {} body ⟨.updated, 2⟩).1 = .error (.depthExceeded 2 default) ∧
      (∀ reached span, (analyzeInto {} body ⟨.updated, 3⟩).1 ≠
        .error (.depthExceeded reached span)) ∧
      analyzeInto {} body ⟨.updated, 256⟩ = analyzeInto {} body ⟨.updated, 3⟩ ∧
      (∃ added added', (analyzeInto {} body ⟨.updated, 2⟩).2.toList = added ∧
        (analyzeInto {} body ⟨.updated, 256⟩).2.toList = added' ∧ added <+: added' ∧
        added.length = 1) := by
  intro f zero body
  have hcut : (analyzeInto {} body ⟨.updated, 2⟩).1 = .error (.depthExceeded 2 default) := rfl
  have hdone : ∀ reached span, (analyzeInto {} body ⟨.updated, 3⟩).1 ≠
      .error (.depthExceeded reached span) := by
    intro reached span h
    cases h
  refine ⟨hcut, hdone, ?_, ?_⟩
  · exact (analyzeInto_limit_raised {} body .updated (by decide : 3 ≤ 256)).1 hdone
  · obtain ⟨added, added', ha, ha', hp⟩ :=
      (analyzeInto_limit_raised {} body .updated (by decide : 2 ≤ 256)).2 2 default hcut
    refine ⟨added, added', ha, ha', hp, ?_⟩
    exact (congrArg List.length ha).symm

end RefLifetime
