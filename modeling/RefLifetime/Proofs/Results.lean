import RefLifetime.Proofs.Contributions

/-!
# Results of invocations

The last step of an invocation holds its result against the demand (`Rule.concluded`). What is
reported then names the argument that limits all arguments. Where the value of a field is the
narrower one, that argument may be innocent. Under the legacy rules, locations flow into the result
and nowhere else.
-/

namespace RefLifetime

namespace Walker

variable (w : Walker)

/-- A visit of an invocation that succeeds has taken its steps and come to a conclusion. -/
theorem invocation_of_visit {levels : Nat} {mood : Mood} {path : Path} {e : Expr} {demand : Demand}
    {s t : State} {scope : Scope} {receiver : Option Expr} {callee : Method} {args : List Argument}
    {inits : List FieldInit} (hform : e.form.Invokes receiver callee args inits)
    (hnew : w.remembered s path demand mood.quiet = none)
    (hv : w.visit (levels + 1) mood path (.expr e) demand s = .ok scope t) :
    ∃ given s₁ s₂ captured s₃ u,
      w.Prepares levels mood path receiver callee args inits demand
        (s.note (.visited path demand mood.quiet false)) given s₁ s₂ captured s₃ ∧
      w.carryOut levels mood path (Rule.concluded w.setting.rules e callee demand
        (Invocation.resolved w.setting.rules demand.block given) captured) s₃ = .ok scope u ∧
      t.journal = u.journal := by
  rw [visit_computed w hnew, Ending.andThen_eq_ok] at hv
  obtain ⟨_, u, hrun, h⟩ := hv
  cases h
  obtain ⟨given, s₁, s₂, captured, s₃, hprepares, hrun⟩ := w.invocation_cases hform hrun
  exact ⟨given, s₁, s₂, captured, s₃, u, hprepares, hrun, rfl⟩

end Walker

/-! ### Who is to blame -/

/-- Something flows from the argument into the result that is too narrow for the target. -/
def Actual.Guilty (rules : Rules) (captures : Bool) (target : Scope) (a : Actual) : Prop :=
  ∃ scope, a.Flows rules captures scope ∧ scope.narrowerThan target = true

namespace Invocation

variable {rules : Rules} {captures : Bool} {bound : List Actual}

/-- The argument that limits the others is guilty exactly if the limit is too narrow. -/
theorem Limits.guilty_iff {k : Nat} {limit : Scope} (h : Limits rules captures bound k limit)
    {a : Actual} (ha : bound[k]? = some a) (target : Scope) :
    a.Guilty rules captures target ↔ limit.narrowerThan target = true := by
  obtain ⟨b, hb, hflows, hle⟩ := h.flows
  obtain rfl : a = b := Option.some.inj (ha.symm.trans hb)
  constructor
  · rintro ⟨scope, hs, hn⟩
    have hlimit := hle scope hs
    simp only [Scope.narrowerThan, Scope.lt_def, Scope.le_def, decide_eq_true_eq] at hn hlimit ⊢
    omega
  · intro hn
    exact ⟨limit, hflows, hn⟩

/-- A message that names a parameter names the one that limits the arguments. -/
theorem exists_limits_of_culpritName {ty : Ty} {demand : Demand}
    (hname : culpritName bound (escape rules ty demand bound).2 ≠ "") :
    ∃ k a p, bound[k]? = some a ∧ a.param = some p ∧
      p.name = culpritName bound (escape rules ty demand bound).2 ∧
      Limits rules (capturesRefs rules ty demand) bound k (escape rules ty demand bound).1 := by
  rcases escape_cases rules ty demand bound with hnone | ⟨k, hk, -, hlimits⟩
  · rw [hnone] at hname
    exact absurd rfl hname
  · obtain ⟨a, ha, hflows, -⟩ := hlimits.flows
    obtain ⟨p, hp⟩ := hflows.exists_param
    refine ⟨k, a, p, ha, hp, ?_, hlimits⟩
    simp [culpritName, hk, ha, Actual.paramName, hp]

end Invocation

namespace Walker

variable (w : Walker)

/-- The message about the result of an invocation names the parameter of the argument that limits
all arguments, if it names any. That argument is guilty exactly if what flows from the arguments is
too narrow. Otherwise nothing but the value of a field is too narrow, which only an object creation
can have, and the parameter is named all the same. -/
theorem blamed_param_limits_arguments (levels : Nat) {mood : Mood} (hq : mood.quiet = false)
    (path : Path) {e : Expr} {receiver : Option Expr} {callee : Method} {args : List Argument}
    {inits : List FieldInit} (hform : e.form.Invokes receiver callee args inits) {demand : Demand}
    {s t : State} {scope : Scope} (hnew : w.remembered s path demand mood.quiet = none)
    (hv : w.visit (levels + 1) mood path (.expr e) demand s = .ok scope t) :
    ∃ given s₁ s₂ captured s₃ name,
      w.Prepares levels mood path receiver callee args inits demand
        (s.note (.visited path demand mood.quiet false)) given s₁ s₂ captured s₃ ∧
      t.journal.diagnostics.toList = s₃.journal.diagnostics.toList ++
        (if e.carries demand && scope.narrowerThan demand.target then
          [Finding.inRegion ⟨.ofCallResult demand.isRef, e.span, [callee.name, name]⟩ mood.region]
        else []) ∧
      (name ≠ "" →
        let bound := Invocation.resolved w.setting.rules demand.block given
        let captures := Invocation.capturesRefs w.setting.rules e.ty demand
        let limit := (Invocation.escape w.setting.rules e.ty demand bound).1
        ∃ k a p, bound[k]? = some a ∧ a.param = some p ∧ p.name = name ∧
          Invocation.Limits w.setting.rules captures bound k limit ∧
          (a.Guilty w.setting.rules captures demand.target ↔
            limit.narrowerThan demand.target = true) ∧
          (e.carries demand = true → scope.narrowerThan demand.target = true →
            a.Guilty w.setting.rules captures demand.target ∨
              inits ≠ [] ∧ ∃ c ∈ captured, c.narrowerThan demand.target = true)) := by
  obtain ⟨given, s₁, s₂, captured, s₃, u, hprepares, hrun, hjournal⟩ :=
    w.invocation_of_visit hform hnew hv
  let bound := Invocation.resolved w.setting.rules demand.block given
  let found := Invocation.escape w.setting.rules e.ty demand bound
  have hconcluded : (e.carries demand = true →
        scope = found.1.join (Scope.joinAll captured)) ∧
      t.journal.diagnostics.toList = s₃.journal.diagnostics.toList ++
        (if e.carries demand && scope.narrowerThan demand.target then
          [Finding.inRegion ⟨.ofCallResult demand.isRef, e.span,
            [callee.name, Invocation.culpritName bound found.2]⟩ mood.region]
        else []) := by
    rw [hjournal]
    by_cases hc : e.carries demand = true
    · rw [Rule.concluded, if_pos hc] at hrun
      obtain ⟨rfl, -, hd⟩ := w.settle_cases hrun
      rw [hd hq, hc, Bool.true_and]
      exact ⟨fun _ => rfl, rfl⟩
    · rw [Rule.concluded, if_neg hc] at hrun
      cases hrun
      simp [hc]
  obtain ⟨hscope, hdiagnostics⟩ := hconcluded
  refine ⟨given, s₁, s₂, captured, s₃, _, hprepares, hdiagnostics, fun hname => ?_⟩
  obtain ⟨k, a, p, ha, hp, hpname, hlimits⟩ := Invocation.exists_limits_of_culpritName hname
  refine ⟨k, a, p, ha, hp, hpname, hlimits, hlimits.guilty_iff ha _, fun hc hn => ?_⟩
  rw [hscope hc, Scope.join_narrowerThan, Scope.joinAll_narrowerThan, Bool.or_eq_true,
    List.any_eq_true] at hn
  rcases hn with hn | ⟨c, hcaptured, hn⟩
  · exact .inl ((hlimits.guilty_iff ha _).mpr hn)
  · refine .inr ⟨?_, c, hcaptured, hn⟩
    rintro rfl
    -- Without fields nothing is captured.
    cases hprepares.reads
    cases hcaptured

/-- A new object in a nested block is given memory of the method, and a field of it memory of the
block. The field is the narrower one, but the parameter that is named is guilty as well. -/
theorem blamed_param_limits_arguments_nested :
    let p : Param := { name := "p", ty := .span .int, span := default }
    let f : Method := { name := "f", returnTy := .refStruct "R", span := default }
    let c : Method := { name := "R", params := [p], returnTy := .refStruct "R", span := default }
    let w : Walker := ⟨⟨.updated, f⟩, 8, true⟩
    let m : Local := { id := 0, name := "m", ty := .span .int, span := default }
    let n : Local := { id := 1, name := "n", ty := .span .int, span := default }
    let member : Field := { name := "v", ty := .span .int, container := .refStruct "R" }
    let e : Expr := ⟨.objectCreation c [⟨⟨.localVar m, .span .int, default⟩, .byValue⟩]
      [⟨member, ⟨.localVar n, .span .int, default⟩⟩], .refStruct "R", default⟩
    let demand : Demand := ⟨.block 1, .value, .returnOnly⟩
    let s : State :=
      { lifetimes := (Lifetimes.empty.insert 0 ⟨.currentMethod, .currentMethod⟩).insert 1
          ⟨.block 1, .block 1⟩ }
    ∃ (t : State) (a : Actual), w.visit 8 {} [] (.expr e) demand s = .ok (.block 1) t ∧
      t.journal.diagnostics.toList.map (·.args) = [["R", "p"]] ∧ a.param = some p ∧
      a.Guilty .updated true demand.target := by
  intro p f c w m n member e demand s
  obtain ⟨t, hv, ht⟩ : ∃ t, w.visit 8 {} [] (.expr e) demand s = .ok (.block 1) t ∧
      t.journal.diagnostics.toList.map (·.args) = [["R", "p"]] := ⟨_, rfl, rfl⟩
  obtain ⟨given, s₁, s₂, captured, s₃, name, ⟨hgiven, hsite, hreads⟩, hdiagnostics, hblame⟩ :=
    w.blamed_param_limits_arguments 7 (rfl : ({} : Mood).quiet = false) []
      (.creation : e.form.Invokes none c _ _) rfl hv
  cases hgiven
  cases hsite
  cases hreads
  have hname : name = "p" := by
    have hargs := ht
    rw [hdiagnostics, List.map_append] at hargs
    cases hargs
    rfl
  obtain ⟨k, a, q, ha, hq, -, hlimits, hguilty, -⟩ := hblame (by rw [hname]; decide)
  refine ⟨t, a, hv, ht, ?_, hguilty.mpr (by decide)⟩
  cases k with
  | zero =>
    cases ha
    rfl
  | succ k => cases ha

/-- A new object is given something that may be returned, and a field of it memory of the method.
Returning the object is reported with the name of the parameter, from which nothing flows that could
not be returned. -/
theorem creation_blames_innocent_param :
    let p : Param := { name := "p", ty := .span .int, passing := .byOut, span := default }
    let q : Param := { name := "q", ty := .span .int, span := default }
    let f : Method := { name := "f", params := [p], returnTy := .refStruct "R", span := default }
    let c : Method := { name := "R", params := [q], returnTy := .refStruct "R", span := default }
    let w : Walker := ⟨⟨.updated, f⟩, 8, true⟩
    let m : Local := { id := 0, name := "m", ty := .span .int, span := default }
    let member : Field := { name := "v", ty := .span .int, container := .refStruct "R" }
    let args : List Argument := [⟨⟨.param p, .span .int, default⟩, .byValue⟩]
    let e : Expr := ⟨.objectCreation c args [⟨member, ⟨.localVar m, .span .int, default⟩⟩],
      .refStruct "R", default⟩
    let demand : Demand := ⟨.currentMethod, .value, .returnOnly⟩
    let s : State := { lifetimes := Lifetimes.empty.insert 0 ⟨.currentMethod, .currentMethod⟩ }
    ∃ t given s₁, w.visit 8 {} [] (.expr e) demand s = .ok .currentMethod t ∧
      t.journal.diagnostics.toList.map (·.args) = [["R", "q"]] ∧
      w.carryOut 7 {} [] (Rule.evaluated c none args demand)
        (s.note (.visited [] demand false false)) = .ok given s₁ ∧
      ∀ a ∈ Invocation.resolved .updated demand.block given,
        ¬ a.Guilty .updated (Invocation.capturesRefs .updated e.ty demand) demand.target := by
  intro p q f c w m member args e demand s
  refine ⟨_, _, _, rfl, rfl, rfl, ?_⟩
  rintro a ha ⟨scope, hflows, hn⟩
  obtain rfl := List.mem_singleton.mp ha
  rcases hflows.eq_or with rfl | href
  · cases hn
  · cases href

end Walker

/-! ### Legacy rules -/

namespace Invocation

/-- A result without a limit is one that no argument limits. -/
theorem escape_eq_callingMethod_iff (rules : Rules) (ty : Ty) {demand : Demand}
    (hb : .callingMethod < demand.block) (bound : List Actual) :
    (escape rules ty demand bound).1 = .callingMethod ↔
      ∀ a ∈ bound, ∀ scope, a.Flows rules (capturesRefs rules ty demand) scope →
        scope = .callingMethod := by
  constructor
  · intro h a ha scope hflows
    obtain ⟨scopes, hf, hs⟩ := Actual.flows_iff.mp hflows
    obtain ⟨-, hstop | hall⟩ := escapeFrom_covers demand.block
      (bound.map (·.flows? rules (capturesRefs rules ty demand))) 0 (.callingMethod, none)
    · change demand.block ≤ (escape rules ty demand bound).1 at hstop
      rw [h] at hstop
      exact absurd hb (Nat.not_lt_of_le hstop)
    · have hle : scope ≤ (escape rules ty demand bound).1 :=
        hall scopes (List.mem_map.mpr ⟨a, ha, hf⟩) scope hs
      rw [h] at hle
      exact (Scope.le_callingMethod_iff scope).mp hle
  · intro h
    rcases escape_cases rules ty demand bound with hnone | ⟨k, -, -, hlimits⟩
    · rw [hnone]
    · obtain ⟨a, ha, hflows, -⟩ := hlimits.flows
      exact h a (List.mem_of_getElem? ha) _ hflows

/-- Under the legacy rules only values are brought to what the callee may store. -/
theorem not_viaRef_of_legacy {given : List Actual} {c : Contribution}
    (hc : c ∈ contributions .legacy given) : c.viaRef = false := by
  obtain ⟨a, -, hb⟩ := mem_contributions.mp hc
  cases hv : c.viaRef with
  | false => rfl
  | true =>
    rw [hv] at hb
    cases hb with
    | location hp ho hr href hc => cases hr

/-- Under the legacy rules nothing limits variables among arguments whose values have no limit. -/
theorem resolved_legacy {given : List Actual} (h : ∀ a ∈ given, a.value = .callingMethod)
    (block : Scope) : resolved .legacy block given = given := by
  have hinferred : inferredScope block (contributions .legacy given) = .callingMethod := by
    refine inferredScope_of (S := (· = .callingMethod)) rfl block fun c hc => ?_
    obtain ⟨a, ha, hb⟩ := mem_contributions.mp hc
    rw [not_viaRef_of_legacy hc] at hb
    generalize c.scope = scope at hb ⊢
    cases hb with
    | value hp ho hty hm => exact h a (List.mem_of_getElem? ha)
  have hsame : ∀ a ∈ given,
      (if a.outVar.isSome then { a with value := .callingMethod } else a) = a := by
    intro a ha
    rw [← h a ha]
    split
    · rfl
    · rfl
  rw [resolved, hinferred, infer, List.map_congr_left hsame, List.map_id']

end Invocation

/-- Under the legacy rules a callee may keep every reference that is not marked otherwise. -/
theorem Param.mayCaptureRef_legacy (p : Param) :
    p.mayCaptureRef .legacy = true ↔ p.passing.isByRef = true ∧ p.modifier ≠ .scopedRef := by
  simp [mayCaptureRef, Rules.isUpdated]

namespace Walker

variable (w : Walker)

/-- Under the legacy rules a new object captures no location. -/
theorem captured_of_legacy (hr : w.setting.rules = .legacy) {levels : Nat} {mood : Mood}
    {path : Path} {inits : List FieldInit} {demand : Demand} {s t : State} {captured : List Scope}
    (h : w.carryOut levels mood path
      (Plan.forEach (fun i init => Rule.fieldInit w.setting.rules i init demand) inits) s =
      .ok captured t) {i : Nat} {init : FieldInit} (hi : inits[i]? = some init)
    (hby : init.field.passing.isByRef = true) : captured[i]? = some .callingMethod := by
  obtain ⟨marks, -, -, hsteps⟩ := Plan.forEach_cases h
  obtain ⟨result, hresult, hrun⟩ := hsteps i init hi
  rw [Rule.fieldInit, Plan.run_bind_eq_ok] at hrun
  obtain ⟨value, s', -, hrun⟩ := hrun
  rw [hr, hby] at hrun
  cases hrun
  exact hresult

/-- Under the legacy rules locations flow neither into what a callee may store nor into the fields
of a new object, but they do flow into results. If all values among the arguments and fields may be
carried anywhere, then an invocation of ref-like type may be carried anywhere exactly if all
locations can that are passed by reference and not scoped. -/
theorem legacy_result_follows_locations (hr : w.setting.rules = .legacy) (levels : Nat)
    (mood : Mood) (path : Path) {e : Expr} {receiver : Option Expr} {callee : Method}
    {args : List Argument} {inits : List FieldInit}
    (hform : e.form.Invokes receiver callee args inits) (hty : e.ty.isRefLike = true)
    {demand : Demand} (hm : demand.mode = .value) (hb : .callingMethod < demand.block)
    {s t : State} {scope : Scope} (hnew : w.remembered s path demand mood.quiet = none)
    (hv : w.visit (levels + 1) mood path (.expr e) demand s = .ok scope t) :
    ∃ (given : List Actual) (s₁ s₂ : State) (captured : List Scope) (s₃ : State),
      w.Prepares levels mood path receiver callee args inits demand
        (s.note (.visited path demand mood.quiet false)) given s₁ s₂ captured s₃ ∧
      (∀ c ∈ Invocation.contributions w.setting.rules given, c.viaRef = false) ∧
      (∀ (i : Nat) (init : FieldInit), inits[i]? = some init → init.field.passing.isByRef = true →
        captured[i]? = some .callingMethod) ∧
      ((∀ a ∈ given, a.value = .callingMethod) → (∀ c ∈ captured, c = .callingMethod) →
        (scope = .callingMethod ↔ ∀ a ∈ given, ∀ p ref, a.param = some p →
          p.passing.isByRef = true → p.modifier ≠ .scopedRef → a.ref = some ref →
          ref = .callingMethod)) := by
  obtain ⟨given, s₁, s₂, captured, s₃, u, hprepares, hrun, -⟩ := w.invocation_of_visit hform hnew hv
  refine ⟨given, s₁, s₂, captured, s₃, hprepares, fun c hc => ?_, fun i init hi hby => ?_,
    fun hvalues hcaptured => ?_⟩
  · rw [hr] at hc
    exact Invocation.not_viaRef_of_legacy hc
  · exact w.captured_of_legacy hr hprepares.reads hi hby
  · have hisRef : demand.isRef = false := by simp [Demand.isRef, hm]
    have hcarries : e.carries demand = true := by
      cases hform' : e.form <;> simp [Expr.carries, hform', hisRef, hty]
    have hfields : Scope.joinAll captured = .callingMethod :=
      Scope.joinAll_of (S := (· = .callingMethod)) rfl hcaptured
    have hscope : scope = (Invocation.escape .legacy e.ty demand given).1 := by
      rw [Rule.concluded, if_pos hcarries] at hrun
      rw [(w.settle_cases hrun).1, hfields, Scope.join_callingMethod, hr,
        Invocation.resolved_legacy hvalues]
    rw [hscope, Invocation.escape_eq_callingMethod_iff .legacy e.ty hb]
    constructor
    · intro h a ha p ref hp hby hscoped href
      exact h a ha ref (.location hp (by simp [Invocation.capturesRefs, Rules.isUpdated]) href
        (p.mayCaptureRef_legacy.mpr ⟨hby, hscoped⟩))
    · intro h a ha scope hflows
      cases hflows with
      | value hp hm => exact hvalues a ha
      | @location p ref hp hcaptures href hc =>
        obtain ⟨hby, hscoped⟩ := p.mayCaptureRef_legacy.mp hc
        exact h a ha p scope hp hby hscoped href

/-- The callee is handed a reference of the caller's and one to a local that it promises not to
keep. What it hands back may be carried anywhere. -/
theorem legacy_result_follows_locations_forwarded :
    let p : Param := { name := "p", ty := .int, passing := .byRef, span := default }
    let q : Param :=
      { name := "q", ty := .int, passing := .byRef, modifier := .scopedRef, span := default }
    let f : Method := { name := "f", params := [p], returnTy := .span .int, span := default }
    let g : Method := { name := "g", params := [p, q], returnTy := .span .int, span := default }
    let w : Walker := ⟨⟨.legacy, f⟩, 8, true⟩
    let x : Local := { id := 0, name := "x", ty := .int, span := default }
    let args : List Argument :=
      [⟨⟨.param p, .int, default⟩, .byRef⟩, ⟨⟨.localVar x, .int, default⟩, .byRef⟩]
    let e : Expr := ⟨.call none g args, .span .int, default⟩
    let demand : Demand := ⟨.currentMethod, .value, .callingMethod⟩
    let s : State := { lifetimes := Lifetimes.empty.insert 0 ⟨.currentMethod, .callingMethod⟩ }
    ∃ scope t, w.visit 8 {} [] (.expr e) demand s = .ok scope t ∧ scope = .callingMethod := by
  intro p q f g w x args e demand s
  obtain ⟨scope, t, hv⟩ : ∃ scope t, w.visit 8 {} [] (.expr e) demand s = .ok scope t :=
    ⟨_, _, rfl⟩
  obtain ⟨given, s₁, s₂, captured, s₃, ⟨hgiven, hsite, hreads⟩, -, -, hiff⟩ :=
    w.legacy_result_follows_locations rfl 7 {} [] (.call : e.form.Invokes none g args []) rfl rfl
      (by decide) rfl hv
  cases hgiven
  cases hreads
  refine ⟨scope, t, hv, (hiff ?_ ?_).mpr ?_⟩
  · rintro a (_ | ⟨_, _ | ⟨_, ⟨⟩⟩⟩)
    · rfl
    · rfl
  · rintro c ⟨⟩
  · rintro a (_ | ⟨_, _ | ⟨_, ⟨⟩⟩⟩) r ref hr hby hscoped href
    · cases href
      rfl
    · cases hr
      exact absurd rfl hscoped

end Walker

/-- A number of the method is passed by reference, and its value may be carried anywhere. What the
callee hands back stays in the method all the same, so that returning it is reported. -/
theorem legacy_result_keeps_location :
    let p : Param := { name := "p", ty := .int, passing := .byRef, span := default }
    let f : Method := { name := "f", returnTy := .span .int, span := default }
    let g : Method := { name := "g", params := [p], returnTy := .span .int, span := default }
    let w : Walker := ⟨⟨.legacy, f⟩, 8, true⟩
    let x : Local := { id := 0, name := "x", ty := .int, span := default }
    let args : List Argument := [⟨⟨.localVar x, .int, default⟩, .byRef⟩]
    let e : Expr := ⟨.call none g args, .span .int, default⟩
    let demand : Demand := ⟨.currentMethod, .value, .callingMethod⟩
    let s : State := { lifetimes := Lifetimes.empty.insert 0 ⟨.currentMethod, .callingMethod⟩ }
    let body : Body :=
      ⟨f, [.declare ⟨x, some ⟨.literal, .int, default⟩⟩, .ret (some e)]⟩
    (∃ t given s₁, w.visit 8 {} [] (.expr e) demand s = .ok .currentMethod t ∧
      w.carryOut 7 {} [] (Rule.evaluated g none args demand)
        (s.note (.visited [] demand false false)) = .ok given s₁ ∧
      given.map (·.value) = [.callingMethod]) ∧
      (analyze body { rules := .legacy }).diagnostics.toList.map (·.args) = [["g", "p"]] :=
  ⟨⟨_, _, _, rfl, rfl, rfl⟩, rfl⟩

end RefLifetime
