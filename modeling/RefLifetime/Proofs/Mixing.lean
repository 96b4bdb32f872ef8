import RefLifetime.Proofs.Results

/-!
# Arguments that are stored through others

A callee can store one of its arguments through another that it may write to. `Invocation.Offends`
says when that would make an argument outlive itself. A call site reports the offending arguments,
each of them once, and nothing else about arguments that mix (`Walker.mixing_reported_exactly`).
-/

namespace RefLifetime

namespace Actual

/-- The callee can store ref structs into the argument through the parameter `p`. -/
structure Mixable (rules : Rules) (a : Actual) (p : Param) : Prop where
  param : a.param = some p
  outVar : a.outVar = none
  refLike : p.ty.isRefLike = true
  writable : p.passing.isWritable = true
  byOut : p.passing = .byOut → rules = .updated

private theorem mixableParam?_eq_some {rules : Rules} {a : Actual} {p : Param} :
    a.mixableParam? rules = some p ↔ a.Mixable rules p := by
  have hupdated : (p.passing != .byOut || rules.isUpdated) = true ↔
      (p.passing = .byOut → rules = .updated) := by
    cases rules <;> simp [Rules.isUpdated]
  constructor
  · intro h
    unfold mixableParam? at h
    split at h
    · next q hq ho =>
      split at h
      · next hc =>
        cases h
        rw [Bool.and_eq_true, Bool.and_eq_true] at hc
        exact ⟨hq, ho, hc.2, hc.1.1, hupdated.mp hc.1.2⟩
      · cases h
    · cases h
  · intro h
    rw [mixableParam?, h.param, h.outVar]
    dsimp only
    rw [h.writable, hupdated.mpr h.byOut, h.refLike]
    rfl

/-- The finding about an argument that could be stored through another. -/
def mixingFinding (callee : Method) (a : Actual) : Finding :=
  ⟨.callArgMixing, a.expr.span, [callee.name, a.paramName]⟩

end Actual

/-! ### The offending arguments -/

namespace Invocation

/-- The argument `a` at position `i` could be stored through another one, which is wider than what
`a` brings. Locations are stored only into what can hold them. -/
def Offends (rules : Rules) (given : List Actual) (i : Nat) (a : Actual) : Prop :=
  ∃ j b p viaRef scope, given[j]? = some b ∧ j ≠ i ∧ b.Mixable rules p ∧
    a.Brings rules viaRef scope ∧ (viaRef = true → p.ty.holdsRefs = true) ∧
    scope.narrowerThan b.value = true

/-- Some arguments, with their positions, are the offending ones among all that are given. -/
structure Offenders (rules : Rules) (given : List Actual) (offenders : List (Nat × Actual)) :
    Prop where
  nodup : (offenders.map (·.1)).Nodup
  mem_iff : ∀ i a, (i, a) ∈ offenders ↔ given[i]? = some a ∧ Offends rules given i a

variable {rules : Rules} {given : List Actual}

private theorem mem_mixedInto {brought : List Contribution} {target : Actual} {i j : Nat} :
    i ∈ mixedInto rules brought target j ↔ ∃ p, target.Mixable rules p ∧ ∃ c ∈ brought,
      c.source = i ∧ j ≠ i ∧ (c.viaRef = true → p.ty.holdsRefs = true) ∧
      c.scope.narrowerThan target.value = true := by
  simp only [← Actual.mixableParam?_eq_some]
  unfold mixedInto
  cases hp : target.mixableParam? rules with
  | none => simp
  | some p =>
    simp only [List.mem_map, List.mem_filter, Option.some.injEq, exists_eq_left', Bool.and_eq_true,
      bne_iff_ne, Bool.or_eq_true, Bool.not_eq_true', ← Bool.not_eq_true, ← imp_iff_not_or]
    constructor
    · rintro ⟨c, ⟨hc, ⟨hne, hholds⟩, hn⟩, rfl⟩
      exact ⟨c, hc, rfl, hne.symm, hholds, hn⟩
    · rintro ⟨c, hc, rfl, hne, hholds, hn⟩
      exact ⟨c, ⟨hc, ⟨hne.symm, hholds⟩, hn⟩, rfl⟩

/-- Of what is given only declared variables change, and those are not mixable. -/
theorem infer_mixable {scope : Scope} {j : Nat} {b : Actual} {p : Param} :
    (infer scope given)[j]? = some b ∧ b.Mixable rules p ↔
      given[j]? = some b ∧ b.Mixable rules p := by
  rw [infer, List.getElem?_map, Option.map_eq_some_iff]
  constructor
  · rintro ⟨⟨a, ha, rfl⟩, hm⟩
    have ho : ¬ a.outVar.isSome = true := by
      intro ho
      have hnone := hm.outVar
      rw [if_pos ho] at hnone
      change a.outVar = none at hnone
      rw [hnone] at ho
      cases ho
    rw [if_neg ho] at hm ⊢
    exact ⟨ha, hm⟩
  · rintro ⟨hb, hm⟩
    refine ⟨⟨b, hb, ?_⟩, hm⟩
    rw [hm.outVar]
    rfl

private theorem mem_mixed {scope : Scope} {i : Nat} :
    i ∈ mixed rules (contributions rules given) (infer scope given) ↔
      ∃ a, given[i]? = some a ∧ Offends rules given i a := by
  rw [mixed, mem_distinct]
  constructor
  · intro h
    obtain ⟨⟨b, j⟩, hb, hi⟩ := List.mem_flatMap.mp h
    obtain ⟨p, hm, c, hc, rfl, hne, hholds, hn⟩ := mem_mixedInto.mp hi
    obtain ⟨a, ha, hbrings⟩ := mem_contributions.mp hc
    obtain ⟨hb, -⟩ := infer_mixable.mp ⟨List.mem_zipIdx_iff_getElem?.mp hb, hm⟩
    exact ⟨a, ha, j, b, p, c.viaRef, c.scope, hb, hne, hm, hbrings, hholds, hn⟩
  · rintro ⟨a, ha, j, b, p, viaRef, brought, hb, hne, hm, hbrings, hholds, hn⟩
    obtain ⟨hb, -⟩ := infer_mixable.mpr ⟨hb, hm⟩
    refine List.mem_flatMap.mpr ⟨(b, j), List.mem_zipIdx_iff_getElem?.mpr hb, ?_⟩
    exact mem_mixedInto.mpr ⟨p, hm, ⟨i, brought, viaRef⟩, mem_contributions.mpr ⟨a, ha, hbrings⟩,
      rfl, hne, hholds, hn⟩

/-- The arguments at some positions. -/
def located (given : List Actual) (positions : List Nat) : List (Nat × Actual) :=
  positions.filterMap fun i => given[i]?.map fun a => (i, a)

private theorem mem_located {positions : List Nat} {i : Nat} {a : Actual} :
    (i, a) ∈ located given positions ↔ i ∈ positions ∧ given[i]? = some a := by
  simp only [located, List.mem_filterMap, Option.map_eq_some_iff, Prod.mk.injEq]
  constructor
  · rintro ⟨_, hi, _, ha, rfl, rfl⟩
    exact ⟨hi, ha⟩
  · rintro ⟨hi, ha⟩
    exact ⟨i, hi, a, ha, rfl, rfl⟩

private theorem offenders_located (rules : Rules) (scope : Scope) (given : List Actual) :
    Offenders rules given
      (located given (mixed rules (contributions rules given) (infer scope given))) where
  nodup := by
    rw [located, List.map_filterMap]
    refine List.Nodup.filterMap (fun i j k hi hj => ?_) (nodup_distinct _)
    simp only [Option.mem_def, Option.map_map, Option.map_eq_some_iff, Function.comp_apply] at hi hj
    obtain ⟨_, -, rfl⟩ := hi
    obtain ⟨_, -, rfl⟩ := hj
    rfl
  mem_iff i a := by
    rw [mem_located, mem_mixed]
    constructor
    · rintro ⟨⟨b, hb, ho⟩, ha⟩
      cases ha.symm.trans hb
      exact ⟨ha, ho⟩
    · rintro ⟨ha, ho⟩
      exact ⟨⟨a, ha, ho⟩, ha⟩

private theorem mixingFindings_eq (rules : Rules) (callee : Method) (brought : List Contribution)
    (scope : Scope) (given : List Actual) :
    mixingFindings rules callee brought (infer scope given) =
      (located given (mixed rules brought (infer scope given))).map
        fun o => o.2.mixingFinding callee := by
  rw [mixingFindings, located, List.map_filterMap]
  congr 1
  funext i
  rw [infer, List.getElem?_map, Option.map_map, Option.map_map]
  congr 1
  funext a
  simp only [Function.comp_apply]
  split
  · rfl
  · rfl

/-- Nothing offends where no parameter is both ref-like and written by reference. -/
theorem Offenders.eq_nil {offenders : List (Nat × Actual)} (h : Offenders rules given offenders)
    (hnone : ∀ a ∈ given, ∀ p, a.param = some p → p.ty.isRefLike = true →
      p.passing.isWritable = false) : offenders = [] := by
  rw [List.eq_nil_iff_forall_not_mem]
  rintro ⟨i, a⟩ hmem
  obtain ⟨-, j, b, p, -, -, hb, -, hm, -⟩ := (h.mem_iff i a).mp hmem
  have hw := hnone b (List.mem_of_getElem? hb) p hm.param hm.refLike
  rw [hm.writable] at hw
  cases hw

end Invocation

/-! ### What a call site reports -/

namespace Rule

variable {visit : Visitor} {mood : Mood} {s t : State}

/-- Declaring the variables of a call reports nothing and gives no hint. -/
theorem declareOutVars_findings {demand : Demand} {scope : Scope} {given : List Actual}
    (h : (declareOutVars demand scope given).run visit mood s = .ok () t) :
    t.findings = s.findings := by
  induction given generalizing s with
  | nil =>
    cases h
    rfl
  | cons a rest ih =>
    unfold declareOutVars at h
    cases ho : a.outVar with
    | none =>
      rw [ho] at h
      exact ih h
    | some var =>
      rw [ho] at h
      change (Plan.lookup _ _).run visit mood s = .ok () t at h
      rw [Plan.run_lookup] at h
      cases hl : s.lifetimes.get? var.id with
      | none =>
        rw [hl] at h
        exact (ih (s := s.declare var (designated demand scope var)) h).trans
          (s.findings_declare var _)
      | some found =>
        rw [hl] at h
        exact ih h

private theorem reportAll_diagnostics (hq : mood.quiet = false) {findings : List Finding}
    (h : (reportAll findings).run visit mood s = .ok () t) :
    t.journal.diagnostics.toList =
      s.journal.diagnostics.toList ++ findings.map (·.inRegion mood.region) := by
  induction findings generalizing s with
  | nil =>
    cases h
    simp
  | cons finding rest ih =>
    change (Plan.report _ _).run visit mood s = .ok () t at h
    rw [Plan.run_report] at h
    rw [ih h]
    simp [State.tell, hq, State.note, Journal.diagnostics_push, Event.diagnostic?]

private theorem hintAll_diagnostics {ids : List Nat}
    (h : (hintAll ids).run visit mood s = .ok () t) :
    t.journal.diagnostics.toList = s.journal.diagnostics.toList := by
  induction ids generalizing s with
  | nil =>
    cases h
    rfl
  | cons id rest ih =>
    change (Plan.hint _ _).run visit mood s = .ok () t at h
    rw [Plan.run_hint] at h
    rw [ih h, State.tell]
    split
    · rfl
    · simp [State.note, Journal.diagnostics_push, Event.diagnostic?]

/-- A call site reports the offending arguments first, and then leaks of confined references. -/
theorem callSite_diagnostics (hq : mood.quiet = false) {rules : Rules} {callee : Method}
    {demand : Demand} {given bound : List Actual}
    (h : (callSite rules callee demand given).run visit mood s = .ok bound t) :
    ∃ offenders, Invocation.Offenders rules given offenders ∧
      t.journal.diagnostics.toList = s.journal.diagnostics.toList ++
        (offenders.map fun o => (o.2.mixingFinding callee).inRegion mood.region) ++
        (bound.filterMap (Invocation.leakFinding? callee)).map (·.inRegion mood.region) := by
  obtain ⟨rfl, s₁, s₂, s₃, hdeclared, hmixed, hleaked, hhinted⟩ := callSite_cases h
  let inferred := Invocation.inferredScope demand.block (Invocation.contributions rules given)
  refine ⟨_, Invocation.offenders_located rules inferred given, ?_⟩
  rw [hintAll_diagnostics hhinted, reportAll_diagnostics hq hleaked,
    reportAll_diagnostics hq hmixed, Invocation.mixingFindings_eq, List.map_map]
  have hsame : s₁.journal.diagnostics.toList = s.journal.diagnostics.toList :=
    congrArg Prod.fst (declareOutVars_findings hdeclared)
  rw [hsame]
  rfl

end Rule

private theorem Invocation.leakFinding?_kind {callee : Method} {a : Actual} {finding : Finding}
    (h : leakFinding? callee a = some finding) : finding.kind = .nonEscapingArgument := by
  unfold leakFinding? at h
  split at h
  · cases h
  · split at h
    · cases h
      rfl
    · cases h

namespace Walker

variable (w : Walker)

/-- An invocation that is visited aloud reports the offending arguments once its arguments are
evaluated. It names each of them once, at its own place, and all else that the call site reports is
about confined references. If no parameter is both ref-like and written by reference then no
argument offends. What was reported stays, however the visit goes on. -/
theorem mixing_reported_exactly (levels : Nat) {mood : Mood} (hq : mood.quiet = false)
    (path : Path) {e : Expr} {receiver : Option Expr} {callee : Method} {args : List Argument}
    {inits : List FieldInit} (hform : e.form.Invokes receiver callee args inits) {demand : Demand}
    {s s₁ : State} {given : List Actual} (hnew : w.remembered s path demand mood.quiet = none)
    (hgiven : w.carryOut levels mood path (Rule.evaluated callee receiver args demand)
      (s.note (.visited path demand mood.quiet false)) = .ok given s₁) :
    ∃ s₂ offenders others,
      w.carryOut levels mood path (Rule.callSite w.setting.rules callee demand given) s₁ =
        .ok (Invocation.resolved w.setting.rules demand.block given) s₂ ∧
      s₂.Grows (Ending.state (w.visit (levels + 1) mood path (.expr e) demand s)) ∧
      s₂.journal.diagnostics.toList = s₁.journal.diagnostics.toList ++
        (offenders.map fun o : Nat × Actual => Finding.inRegion
          ⟨.callArgMixing, o.2.expr.span, [callee.name, o.2.paramName]⟩ mood.region) ++ others ∧
      (∀ d ∈ others, d.code = .ofViolation .nonEscapingArgument mood.region) ∧
      Invocation.Offenders w.setting.rules given offenders ∧
      ((∀ p ∈ callee.signature, p.ty.isRefLike = true → p.passing.isWritable = false) →
        offenders = []) := by
  obtain ⟨s₂, hsite⟩ : ∃ s₂, w.carryOut levels mood path
      (Rule.callSite w.setting.rules callee demand given) s₁ =
        .ok (Invocation.resolved w.setting.rules demand.block given) s₂ :=
    Rule.callSite_ends w.setting.rules callee demand given s₁
  obtain ⟨offenders, hoffenders, hdiagnostics⟩ := Rule.callSite_diagnostics hq hsite
  refine ⟨s₂, offenders, _, hsite, ?_, hdiagnostics, ?_, hoffenders, fun hnone => ?_⟩
  · rw [visit_computed w hnew]
    change State.Grows s₂ (Ending.state (Ending.andThen
      (w.carryOut levels mood path (Rule.expr w.setting e demand) _) _))
    rw [Rule.expr_invokes w.setting demand hform, carryOut_bind, hgiven]
    change State.Grows s₂ (Ending.state (Ending.andThen (w.carryOut levels mood path
      (Rule.callSite w.setting.rules callee demand given >>= _) s₁) _))
    rw [carryOut_bind, hsite]
    refine State.persistent_grows.andThen ?_ fun scope t => ⟨[], .refl t⟩
    exact State.persistent_grows.run mood (fun route node asked inner =>
      w.visit_grows levels inner (path ++ route) node asked) _ s₂
  · intro d hd
    obtain ⟨finding, hf, rfl⟩ := List.mem_map.mp hd
    obtain ⟨a, -, ha⟩ := List.mem_filterMap.mp hf
    rw [Finding.inRegion, Invocation.leakFinding?_kind ha]
  · refine hoffenders.eq_nil fun a ha p hp => hnone p ?_
    exact (Rule.evaluated_sound hgiven a ha).param p hp

/-- The callee may write to two of its three arguments. Their locations could be stored through each
other, and the third argument through both of them, but it is named only once. -/
theorem mixing_reported_exactly_both :
    let p : Param := { name := "p", ty := .span .int, passing := .byRef, span := default }
    let q : Param := { name := "q", ty := .span .int, passing := .byRef, span := default }
    let r : Param := { name := "r", ty := .span .int, span := default }
    let f : Method := { name := "f", params := [p, q], returnTy := .void, span := default }
    let g : Method := { name := "g", params := [p, q, r], returnTy := .void, span := default }
    let w : Walker := ⟨⟨.updated, f⟩, 8, true⟩
    let m : Local := { id := 0, name := "m", ty := .span .int, span := default }
    let args : List Argument := [⟨⟨.param p, .span .int, default⟩, .byRef⟩,
      ⟨⟨.param q, .span .int, default⟩, .byRef⟩, ⟨⟨.localVar m, .span .int, default⟩, .byValue⟩]
    let e : Expr := ⟨.call none g args, .void, default⟩
    let demand : Demand := ⟨.currentMethod, .value, .callingMethod⟩
    let s : State := { lifetimes := Lifetimes.empty.insert 0 ⟨.currentMethod, .currentMethod⟩ }
    let t := Ending.state (w.visit 8 {} [] (.expr e) demand s)
    t.journal.diagnostics.toList.map (·.args) = [["g", "q"], ["g", "r"], ["g", "p"]] ∧
      ∃ given s₁ a, w.carryOut 7 {} [] (Rule.evaluated g none args demand)
          (s.note (.visited [] demand false false)) = .ok given s₁ ∧
        given[2]? = some a ∧ Invocation.Offends .updated given 2 a ∧
        (a.mixingFinding g).inRegion .checked ∈ t.journal.diagnostics.toList := by
  intro p q r f g w m args e demand s t
  refine ⟨by decide +kernel, ?_⟩
  obtain ⟨given, s₁, a, hgiven, ha, hoffends⟩ : ∃ given s₁ a,
      w.carryOut 7 {} [] (Rule.evaluated g none args demand)
        (s.note (.visited [] demand false false)) = .ok given s₁ ∧
      given[2]? = some a ∧ Invocation.Offends .updated given 2 a :=
    ⟨_, _, _, rfl, rfl, 0, _, p, false, .currentMethod, rfl, by decide,
      ⟨rfl, rfl, rfl, rfl, by decide⟩, .value rfl rfl rfl (by decide), by simp, by decide⟩
  refine ⟨given, s₁, a, hgiven, ha, hoffends, ?_⟩
  have hform : e.form.Invokes none g args [] := .call
  obtain ⟨s₂, offenders, others, -, hgrows, hdiagnostics, -, hoffenders, -⟩ :=
    w.mixing_reported_exactly 7 (rfl : ({} : Mood).quiet = false) [] hform rfl hgiven
  refine hgrows.diagnostics.subset ?_
  rw [hdiagnostics]
  refine List.mem_append_left _ (List.mem_append_right _ (List.mem_map.mpr ⟨(2, a), ?_, rfl⟩))
  exact (hoffenders.mem_iff 2 a).mpr ⟨ha, hoffends⟩

end Walker

end RefLifetime
