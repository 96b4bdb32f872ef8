import RefLifetime.Proofs.Contexts
import RefLifetime.Proofs.Nesting
import RefLifetime.Proofs.Region

/-!
# Diagnostics that are never reported

Some violations have a name and a wording but no analysis comes across them: those of members of
parameters, since only the parameter itself is named, and the return-only parameter, since a
location is asked for only within its block or to be returned (`Demand.Modest`). The legacy rules
have no return-only scope at all and report nothing that has to do with it.
-/

namespace RefLifetime

/-- The violations that are not reported under the rules. -/
def Violation.unreported (rules : Rules) : List Violation :=
  [refReturnParameterMember, refReturnScopedParameterMember, refReturnOnlyParameterMember,
    refReturnOnlyParameter] ++ if rules.isUpdated then [] else [refAssignReturnOnly]

/-- The codes that are not reported under the rules, as errors or as warnings. -/
def Code.unreported (rules : Rules) : List Code :=
  let kinds := Violation.unreported rules
  kinds.flatMap (fun kind => [violation kind .error, violation kind .warning]) ++
    if rules.isUpdated then [] else [mayCaptureRefParameter]

private theorem Code.violation_mem_unreported {rules : Rules} {kind : Violation}
    {severity : Severity} (h : violation kind severity ∈ unreported rules) :
    kind ∈ Violation.unreported rules := by
  rcases List.mem_append.mp h with h | h
  · obtain ⟨other, ho, hk⟩ := List.mem_flatMap.mp h
    have heq : kind = other := by
      simp only [List.mem_cons, violation.injEq, List.not_mem_nil, or_false] at hk
      rcases hk with hk | hk <;> exact hk.1
    rw [heq]
    exact ho
  · split at h
    · cases h
    · cases List.mem_singleton.mp h

/-! ### What locations are asked for -/

/-- If a location is asked for, then with no requirement beyond its block, or to be returned. -/
def Demand.Modest (rules : Rules) (demand : Demand) : Prop :=
  demand.mode = .ref → demand.target = demand.block ∨ demand.target = rules.returnScope

/-- The location of the holder matters only to the location of the field. -/
theorem Field.limit?_ref {member : Field} {rules : Rules} {holder : Expr} {mode : Mode}
    (h : member.limit? rules holder mode = some .ref) : mode = .ref := by
  cases mode with
  | ref => rfl
  | value =>
    rw [limit?] at h
    split at h <;> cases h

namespace Demand.Modest

variable {rules : Rules} {demand : Demand}

private theorem of_value (h : demand.mode = .value) : demand.Modest rules := by
  intro hr
  rw [h] at hr
  cases hr

private theorem forOperand (demand : Demand) : demand.forOperand.Modest rules := by
  apply of_value
  unfold Demand.forOperand
  split
  · rfl
  · next hr =>
    cases hm : demand.mode with
    | value => rfl
    | ref => simp [Demand.isRef, hm] at hr

private theorem forBranch (h : demand.Modest rules) (byRef : Bool) :
    (demand.forBranch byRef).Modest rules := by
  unfold Demand.forBranch
  split
  · exact of_value rfl
  · exact h

private theorem holderDemand (h : demand.Modest rules) (member : Field) (e : Expr) :
    (member.holderDemand rules e demand).Modest rules := by
  unfold Field.holderDemand
  cases hl : member.limit? rules e demand.mode with
  | none => exact of_value rfl
  | some mode =>
    rintro rfl
    exact h (Field.limit?_ref hl)

end Demand.Modest

/-- A rule that is asked modestly asks so of its parts. -/
theorem Part.Asks.modest {setting : Setting} {p : Part} (hu : p.Usual setting) {whole : Demand}
    {seen : List Answer} {asked : Demand} (h : p.Asks whole seen asked)
    (hw : whole.Modest setting.rules) : asked.Modest setting.rules := by
  have ha := h.2
  cases hu with
  | free => exact fun _ => .inl ha
  | same =>
    cases ha
    exact hw
  | inBlock | onHeap =>
    cases ha
    exact .of_value rfl
  | returned mode =>
    cases ha
    exact fun _ => .inr rfl
  | operand =>
    cases ha
    exact .forOperand whole
  | branch byRef =>
    cases ha
    exact hw.forBranch byRef
  | holder member e =>
    cases ha
    exact hw.holderDemand member e
  | stored place => exact .of_value ha.1

/-! ### What is found -/

/-- Only the updated rules know the return-only scope. -/
def Scope.Known (rules : Rules) (scope : Scope) : Prop := rules = .legacy → scope ≠ .returnOnly

private theorem Scope.Proper.known {rules : Rules} {nesting : Nat} {scope : Scope}
    (h : scope.Proper rules nesting) : scope.Known rules := by
  rintro hr rfl
  rw [Scope.Proper, hr] at h
  cases h

private theorem Scope.known_of_depth {scope : Scope} (h : bodyDepth ≤ scope.depth) (rules : Rules) :
    scope.Known rules := by
  rintro - rfl
  exact absurd h (by decide)

private theorem Scope.closed_known {block : Scope} (h : bodyDepth ≤ block.depth) (rules : Rules) :
    Closed (Known rules) block where
  callingMethod _ hs := by cases hs
  currentMethod _ hs := by cases hs
  block := known_of_depth h rules

/-- The location of a return-only parameter is wide enough for whatever is asked modestly. -/
theorem Param.refScope_ne_returnOnly {rules : Rules} {p : Param} {demand : Demand}
    (hb : Scope.bodyDepth ≤ demand.block.depth) (hm : demand.mode = .ref)
    (hd : demand.Modest rules) (hn : (p.refScope rules).narrowerThan demand.target = true) :
    p.refScope rules ≠ .returnOnly := by
  intro hs
  have hlt : demand.target.depth < 1 := by
    rw [hs] at hn
    exact of_decide_eq_true hn
  -- Only the scope of the caller is wider, and that is no block. The legacy rules return to it,
  -- but then the parameter is not return-only.
  rcases hd hm with ht | ht
  · rw [ht] at hlt
    simp only [Scope.bodyDepth] at hb
    omega
  · rw [ht] at hlt
    cases rules with
    | legacy => exact (p.proper_refScope .legacy 0).known rfl hs
    | updated => exact absurd hlt (by decide)

private theorem Local.refFinding_kind (var : Local) (span : Span) (target : Scope) :
    (var.refFinding span target).kind =
      .ofLocalRef target (var.kind.isReturnableByRef || var.passing.isByRef) := by
  unfold Local.refFinding
  dsimp only
  split <;> rfl

/-- Nothing unreported arises where locations are asked for modestly. -/
theorem Finding.Arises.kind_not_unreported {rules : Rules} {demand : Demand} {finding : Finding}
    (h : finding.Arises (Scope.Known rules) rules demand)
    (hb : Scope.bodyDepth ≤ demand.block.depth) (hd : demand.Modest rules) :
    finding.kind ∉ Violation.unreported rules := by
  cases h with
  | localRef var span hm =>
    rw [Local.refFinding_kind, Violation.ofLocalRef]
    split
    · cases rules <;> decide
    · split <;> cases rules <;> decide
  | value name span hm | mixing callee a | leak callee a p | refAssignValue left right =>
    dsimp only
    cases rules <;> decide
  | paramRef p span hm hn =>
    unfold Param.refFinding
    split <;> dsimp only
    · cases rules <;> decide
    · rw [decide_eq_false (Param.refScope_ne_returnOnly hb hm hd hn)]
      generalize (p.passing.isByRef && decide (p.refScope rules = .currentMethod)) = refScoped
      cases refScoped <;> cases rules <;> decide
  | stack hk e =>
    dsimp only
    rcases hk with rfl | rfl <;> cases rules <;> decide
  | result byRef e callee culprit =>
    dsimp only
    cases byRef <;> cases rules <;> decide
  | @refAssign referent hs left right =>
    dsimp only
    unfold Violation.ofRefAssign
    split
    · cases rules with
      | updated => decide
      | legacy => exact absurd rfl (hs rfl)
    · cases rules <;> decide

/-- Without the updated rules there are no warnings about signatures. -/
theorem Method.code_captureWarning_not_unreported {m : Method} {rules : Rules} {d : Diagnostic}
    (h : d ∈ m.captureWarnings rules) : d.code ∉ Code.unreported rules := by
  cases rules with
  | legacy => cases h
  | updated =>
    rw [Method.code_captureWarning h]
    decide

/-! ### Analyses -/

/-- Locations are asked for modestly, and nothing unreported is reported. -/
def Discipline.unreported (rules : Rules) : Discipline where
  asks _ demand := Scope.bodyDepth ≤ demand.block.depth ∧ demand.Modest rules
  scopes := Scope.Known rules
  lifetimes _ _ := True
  events
    | .visited _ demand _ _ => demand.Modest rules
    | .reported d => d.code ∉ Code.unreported rules
    | _ => True

private theorem Walker.upholds_unreported (w : Walker) :
    w.Upholds (.unreported w.setting.rules) where
  closed _ _ ha := Scope.closed_known ha.1 _
  inner _ demand _ _ := Scope.closed_known demand.block.bodyDepth_le_enterBlock _
  allows _ _ _ p _ := ⟨(p.proper_refScope _ 0).known, (p.proper_valueScope _ 0).known⟩
  parts node _ ha p hp _ _ hasked :=
    ⟨hasked.bodyDepth_le ha.1, hasked.modest (node.stops_usual w.setting p hp) ha.2⟩
  visited _ _ ha _ _ _ := ha.2
  reported _ _ ha _ hf _ hc :=
    hf.kind_not_unreported ha.1 ha.2 (Code.violation_mem_unreported hc)
  warned _ hw := Method.code_captureWarning_not_unreported hw

/-- Some diagnostics are never reported, whatever the body and whether or not its analysis fails:
neither a member of a parameter nor a return-only parameter is reported to escape, and under the
legacy rules nothing that has to do with the return-only scope is. For in every visit of an
expression for its location, nothing is required beyond its block or it is to be returned. -/
theorem analyzeInto_adds_nothing_unreported (earlier : Diagnostics) (body : Body)
    (options : Options) :
    (∃ added, (analyzeInto earlier body options).2.toList = earlier.toList ++ added ∧
      ∀ d ∈ added, d.code ∉ Code.unreported options.rules) ∧
    ∀ path demand quiet recalled,
      .visited path demand quiet recalled ∈ (analyze body options).journal.events.toList →
        demand.Modest options.rules := by
  let w : Walker := { setting := ⟨options.rules, body.method⟩, limit := options.maxDepth }
  have hw : w.Upholds (.unreported options.rules) := w.upholds_unreported
  have hbody : ∀ st ∈ body.stmts,
      (Discipline.unreported options.rules).asks (.stmt st) .methodBody :=
    fun _ _ => ⟨Nat.le_refl _, .of_value rfl⟩
  refine ⟨⟨_, rfl, hw.diagnostics hbody⟩, ?_⟩
  intro path demand quiet recalled hv
  exact (hw.analyze hbody).1 _ hv

/-- A reference to a static field is re-pointed to a parameter. Only the updated rules object. -/
example :
    let p : Param := { name := "p", ty := .int, passing := .byRef, span := default }
    let r : Local := { id := 0, name := "r", ty := .int, passing := .byRef, span := default }
    let g : Field := { name := "g", ty := .int, container := .int, isStatic := true }
    let f : Method := { name := "f", params := [p], returnTy := .void, span := default }
    let useR : Expr := ⟨.localVar r, .int, default⟩
    let useP : Expr := ⟨.param p, .int, default⟩
    let body : Body :=
      ⟨f, [.declare ⟨r, some ⟨.field none g, .int, default⟩⟩,
        .eval ⟨.assignment useR useP true, .int, default⟩]⟩
    (analyze body ⟨.updated, 16⟩).diagnostics.codes = [.violation .refAssignReturnOnly .error] ∧
      (analyze body ⟨.legacy, 16⟩).diagnostics.codes = [] := by
  decide

end RefLifetime
