import RefLifetime.Proofs.Expansion
import RefLifetime.Proofs.Returnable

/-!
# Invocations, step by step

Calls and object creations take the same steps (`Rule.expr_invokes`): they evaluate their arguments,
check the call site as a whole, where the variables among the arguments get their scopes, read the
values of fields, and hold the result against the demand. `Walker.invocation_cases` takes an
invocation that succeeds apart into these steps, and `Walker.invocation_records` says what it leaves
on record.
-/

namespace RefLifetime

/-! ### Plans -/

namespace Plan

variable {α β : Type} {visit : Visitor} {mood : Mood}

/-- A tour that succeeds has a result as the tour promises it. -/
theorem Tours.result {whole : Demand} {hazard : Prop} {Q : α → Prop} {seen : List Answer}
    {todo : List Stop} {p : Plan α} (h : Tours whole hazard Q seen todo p) {s t : State} {a : α}
    (hrun : p.run visit mood s = .ok a t) : Q a := by
  induction h generalizing s with
  | done h =>
    cases hrun
    exact h
  | fail hz => cases hrun
  | first hq ha hn ih =>
    rw [run_visit, Ending.andThen_eq_ok] at hrun
    obtain ⟨scope, s₁, -, hrun⟩ := hrun
    exact ih scope hrun
  | again hq hx hf hd hn ih =>
    rw [run_visit, Ending.andThen_eq_ok] at hrun
    obtain ⟨scope, s₁, -, hrun⟩ := hrun
    exact ih scope hrun
  | declare hz hn ih => exact ih hrun
  | @designate seen todo var lifetime next h hn ih =>
    rw [run_lookup] at hrun
    cases hl : s.lifetimes.get? var.id with
    | none =>
      rw [hl, h] at hrun
      exact ih lifetime hrun
    | some found =>
      rw [hl] at hrun
      exact ih found hrun
  | @lookup seen todo id cause next hz h hn ih =>
    rw [run_lookup] at hrun
    cases hl : s.lifetimes.get? id with
    | none =>
      rw [hl, h] at hrun
      cases hrun
    | some found =>
      rw [hl] at hrun
      exact ih found hrun
  | report hn ih => exact ih hrun
  | hint hn ih => exact ih hrun

/-- Two plans in sequence succeed exactly if the first does, and then the second from where it
ended. -/
theorem run_bind_eq_ok {p : Plan α} {f : α → Plan β} {s t : State} {b : β} :
    (p >>= f).run visit mood s = .ok b t ↔
      ∃ a s₁, p.run visit mood s = .ok a s₁ ∧ (f a).run visit mood s₁ = .ok b t := by
  rw [Plan.run_bind, Walk.bind_apply]
  exact Ending.andThen_eq_ok

/-- What is carried out for each member of a list leads from one state to the next. -/
theorem forEach_cases {f : Nat → α → Plan β} {items : List α} {start : Nat} {s t : State}
    {results : List β} (h : (Plan.forEach f items start).run visit mood s = .ok results t) :
    ∃ marks : Nat → State, marks 0 = s ∧ marks items.length = t ∧
      ∀ i item, items[i]? = some item → ∃ result, results[i]? = some result ∧
        (f (start + i) item).run visit mood (marks i) = .ok result (marks (i + 1)) := by
  induction items generalizing start s results with
  | nil =>
    cases h
    exact ⟨fun _ => t, rfl, rfl, fun i item hi => by cases hi⟩
  | cons first rest ih =>
    rw [Plan.forEach, run_bind_eq_ok] at h
    obtain ⟨result, s₁, hfirst, h⟩ := h
    rw [run_bind_eq_ok] at h
    obtain ⟨results, s₂, hrest, h⟩ := h
    cases h
    obtain ⟨marks, rfl, hend, hsteps⟩ := ih hrest
    refine ⟨fun i => Nat.casesOn i s marks, rfl, hend, fun i item hi => ?_⟩
    cases i with
    | zero =>
      cases hi
      exact ⟨result, rfl, hfirst⟩
    | succ i =>
      have hstep := hsteps i item hi
      rwa [Nat.add_assoc, Nat.add_comm 1 i] at hstep

end Plan

/-! ### What is recorded at a call site -/

private theorem State.lifetimes_tell (s : State) (mood : Mood) (event : Event) :
    (s.tell mood event).lifetimes = s.lifetimes := by
  unfold tell
  split
  · rfl
  · rfl

/-- The stops of the receiver and the arguments of an invocation. -/
def Stop.actuals (receiver : Option Expr) (args : List Argument) : List Stop :=
  Stop.ofOption (Stop.actual [.receiver]) receiver ++
    Stop.forEach (fun i arg => Stop.actual [.argument i] arg.value) args

/-- The stops of the values of fields. -/
def Stop.inits (inits : List FieldInit) : List Stop :=
  Stop.forEach (fun i init => [Stop.free [.init i] init.value]) inits

/-- The walk comes by no declaration in the values of fields that is not in the syntax. -/
theorem Stop.ids_inits_subset (setting : Setting) (levels : Nat) (inits : List FieldInit) :
    Stop.ids (Node.ids setting levels) (Stop.inits inits) ⊆ FieldInit.listSites inits := by
  have hsub (start : Nat) : Stop.ids (Node.ids setting levels)
      (Stop.forEach (fun i init => [Stop.free [.init i] init.value]) inits start) ⊆
      FieldInit.listSites inits := by
    induction inits generalizing start with
    | nil => exact List.nil_subset _
    | cons init rest ih =>
      obtain ⟨member, value⟩ := init
      refine List.append_subset.mpr
        ⟨?_, List.Subset.trans (ih (start + 1)) (List.subset_append_right _ _)⟩
      exact List.Subset.trans (Node.ids_subset_sites setting levels (.expr value))
        (List.subset_append_left _ _)
  exact hsub 0

namespace Rule

variable {visit : Visitor} {mood : Mood} {s t : State}

/-- The lifetime of a variable that is introduced in the middle of an expression. -/
def designated (demand : Demand) (value : Scope) (var : Local) : Lifetime :=
  ⟨demand.block, if var.modifier = .scopedValue then demand.block else value⟩

/-- The first of some variables that has this id. -/
def firstNamed (id : Nat) (vars : List Local) : Option Local := vars.find? (·.id == id)

/-- What was on record stays, and of the variables with one id the first one is recorded. -/
theorem declareOutVars_get? (demand : Demand) (scope : Scope) {given : List Actual}
    (h : (declareOutVars demand scope given).run visit mood s = .ok () t) (id : Nat) :
    t.lifetimes.get? id = (s.lifetimes.get? id).or
      ((firstNamed id (given.filterMap (·.outVar))).map (designated demand scope)) := by
  induction given generalizing s with
  | nil =>
    cases h
    simp [firstNamed]
  | cons a rest ih =>
    unfold declareOutVars at h
    cases ho : a.outVar with
    | none =>
      rw [ho] at h
      rw [List.filterMap_cons_none ho]
      exact ih h
    | some var =>
      rw [ho] at h
      rw [List.filterMap_cons_some ho, firstNamed, List.find?_cons]
      change (Plan.lookup _ _).run visit mood s = .ok () t at h
      rw [Plan.run_lookup] at h
      cases hl : s.lifetimes.get? var.id with
      | none =>
        rw [hl] at h
        have hrest := ih (s := s.declare var (designated demand scope var)) h
        rw [hrest]
        simp only [State.declare, State.note, Lifetimes.get?_insert]
        by_cases hid : id = var.id
        · simp [hid, hl]
        · have hne : (var.id == id) = false := by simpa using Ne.symm hid
          simp [hid, hne, firstNamed]
      | some found =>
        rw [hl] at h
        rw [ih h]
        by_cases hid : id = var.id
        · simp [hid, hl]
        · have hne : (var.id == id) = false := by simpa using Ne.symm hid
          simp [hne, firstNamed]

private theorem reportAll_lifetimes {findings : List Finding}
    (h : (reportAll findings).run visit mood s = .ok () t) : t.lifetimes = s.lifetimes := by
  induction findings generalizing s with
  | nil =>
    cases h
    rfl
  | cons finding rest ih => exact (ih h).trans (s.lifetimes_tell mood _)

private theorem hintAll_lifetimes {ids : List Nat} (h : (hintAll ids).run visit mood s = .ok () t) :
    t.lifetimes = s.lifetimes := by
  induction ids generalizing s with
  | nil =>
    cases h
    rfl
  | cons id rest ih => exact (ih h).trans (s.lifetimes_tell mood _)

/-- The steps of a call site: the variables among the arguments are declared with the scope that is
inferred for them, and then findings are reported and hints passed on. -/
theorem callSite_cases {rules : Rules} {callee : Method} {demand : Demand}
    {given bound : List Actual}
    (h : (callSite rules callee demand given).run visit mood s = .ok bound t) :
    let brought := Invocation.contributions rules given
    let inferred := Invocation.inferredScope demand.block brought
    bound = Invocation.infer inferred given ∧ ∃ s₁ s₂ s₃,
      (declareOutVars demand inferred given).run visit mood s = .ok () s₁ ∧
      (reportAll (Invocation.mixingFindings rules callee brought bound)).run visit mood s₁ =
        .ok () s₂ ∧
      (reportAll (bound.filterMap (Invocation.leakFinding? callee))).run visit mood s₂ =
        .ok () s₃ ∧
      (hintAll (bound.filterMap Invocation.stackArray?)).run visit mood s₃ = .ok () t := by
  unfold callSite at h
  rw [Plan.run_bind_eq_ok] at h
  obtain ⟨_, s₁, hdeclared, h⟩ := h
  rw [Plan.run_bind_eq_ok] at h
  obtain ⟨_, s₂, hmixed, h⟩ := h
  rw [Plan.run_bind_eq_ok] at h
  obtain ⟨_, s₃, hleaked, h⟩ := h
  rw [Plan.run_bind_eq_ok] at h
  obtain ⟨_, s₄, hhinted, h⟩ := h
  cases h
  exact ⟨rfl, s₁, s₂, s₃, hdeclared, hmixed, hleaked, hhinted⟩

/-- A call site records the variables among the arguments that are not on record yet. All of them
get the one scope that is inferred from the other arguments. -/
theorem callSite_get? (rules : Rules) (callee : Method) (demand : Demand)
    {given bound : List Actual}
    (h : (callSite rules callee demand given).run visit mood s = .ok bound t) (id : Nat) :
    t.lifetimes.get? id = (s.lifetimes.get? id).or
      ((firstNamed id (given.filterMap (·.outVar))).map (designated demand
        (Invocation.inferredScope demand.block (Invocation.contributions rules given)))) := by
  obtain ⟨-, s₁, s₂, s₃, hdeclared, hmixed, hleaked, hhinted⟩ := callSite_cases h
  rw [hintAll_lifetimes hhinted, reportAll_lifetimes hleaked, reportAll_lifetimes hmixed]
  exact declareOutVars_get? demand _ hdeclared id

/-- The receiver and the arguments are visited in order, and which variables they declare is known.
-/
theorem evaluated_tours (callee : Method) (receiver : Option Expr) (args : List Argument)
    (demand : Demand) :
    Plan.Tours demand True
      (fun given => given.map (·.outVar) =
        (receiver.toList ++ args.map (·.value)).map (·.form.outVar?)) []
      (Stop.actuals receiver args) (evaluated callee receiver args demand) := by
  refine Plan.Tours.bind (receiverActual_tours callee receiver) fun own ho => ?_
  refine Plan.Tours.bind_nil (actuals_tours callee args) fun given hg => .done ?_
  rw [List.map_append, List.map_append, ho, hg, List.map_map]
  rfl

/-- The variables among evaluated arguments are those that the syntax shows. -/
theorem evaluated_outVars {callee : Method} {receiver : Option Expr} {args : List Argument}
    {demand : Demand} {given : List Actual}
    (h : (evaluated callee receiver args demand).run visit mood s = .ok given t) :
    given.filterMap (·.outVar) = Argument.outVars receiver args := by
  have hmap := congrArg (List.filterMap id) ((evaluated_tours callee receiver args demand).result h)
  rwa [List.filterMap_map, List.filterMap_map] at hmap

end Rule

/-! ### The steps of an invocation -/

/-- The form evaluates a receiver and arguments for a callee, and then the values of fields. -/
inductive Form.Invokes :
    Form → Option Expr → Method → List Argument → List FieldInit → Prop
  | call {receiver : Option Expr} {callee : Method} {args : List Argument} :
      Invokes (.call receiver callee args) receiver callee args []
  | creation {constructor : Method} {args : List Argument} {inits : List FieldInit} :
      Invokes (.objectCreation constructor args inits) none constructor args inits

/-- Nothing is as wide as the calling method but itself. -/
theorem Scope.le_callingMethod_iff (scope : Scope) :
    scope ≤ .callingMethod ↔ scope = .callingMethod := by
  constructor
  · intro h
    have hd : scope.depth = 0 := Nat.le_zero.mp h
    cases scope with
    | callingMethod => rfl
    | returnOnly | currentMethod | unused => cases hd
    | block level =>
      simp only [depth, bodyDepth, maxDepth] at hd
      omega
  · rintro rfl
    exact Nat.le_refl _

/-- The calling method adds nothing to a join from the right. -/
theorem Scope.join_callingMethod (scope : Scope) : scope.join .callingMethod = scope := by
  unfold join
  split
  · next h => exact ((le_callingMethod_iff scope).mp h).symm
  · rfl

/-- The answer to the demand depends on what the invocation hands back. Otherwise it is a plain
value. -/
def Expr.carries (e : Expr) (demand : Demand) : Bool :=
  match e.form with
  | .call _ callee _ => if demand.isRef then callee.returnsByRef else e.ty.isRefLike
  | _ => !demand.isRef && e.ty.isRefLike

namespace Rule

/-- The last step of an invocation: what flows from the arguments and what the fields capture is
held against the demand. -/
def concluded (rules : Rules) (e : Expr) (callee : Method) (demand : Demand) (bound : List Actual)
    (captured : List Scope) : Plan Scope :=
  if e.carries demand then
    let found := Invocation.escape rules e.ty demand bound
    Plan.settle demand (found.1.join (Scope.joinAll captured))
      ⟨.ofCallResult demand.isRef, e.span, [callee.name, Invocation.culpritName bound found.2]⟩
  else return demand.rvalue .callingMethod

variable {receiver : Option Expr} {callee : Method} {args : List Argument} {inits : List FieldInit}

/-- Calls and object creations take the same steps. -/
theorem expr_invokes (setting : Setting) {e : Expr} (demand : Demand)
    (hform : e.form.Invokes receiver callee args inits) :
    expr setting e demand = (do
      let given ← evaluated callee receiver args demand
      let bound ← callSite setting.rules callee demand given
      let captured ← Plan.forEach (fun i init => fieldInit setting.rules i init demand) inits
      concluded setting.rules e callee demand bound captured) := by
  obtain ⟨form, ty, span⟩ := e
  cases hform with
  | call =>
    have hnone : Plan.forEach (fun i init => fieldInit setting.rules i init demand) [] =
        (pure [] : Plan (List Scope)) := rfl
    have hjoin (scope : Scope) : scope.join (Scope.joinAll []) = scope :=
      scope.join_callingMethod
    simp only [expr, call, evaluated, bind_assoc, pure_bind, hnone, concluded, Expr.carries, hjoin]
  | creation =>
    have hnone : evaluated callee none args demand = actuals callee args demand := by
      simp [evaluated, receiverActual]
    simp only [expr, objectCreation, hnone, concluded, Expr.carries]
    by_cases hr : demand.isRef = true
    · simp [hr]
    · simp [hr]

end Rule

namespace Walker

/-- The steps of an invocation before its conclusion: the arguments are evaluated to `given`, the
call site is checked, and `captured` is what the new object captures of the values of its fields. -/
structure Prepares (w : Walker) (levels : Nat) (mood : Mood) (path : Path) (receiver : Option Expr)
    (callee : Method) (args : List Argument) (inits : List FieldInit) (demand : Demand)
    (s : State) (given : List Actual) (s₁ s₂ : State) (captured : List Scope) (s₃ : State) :
    Prop where
  evaluates : w.carryOut levels mood path (Rule.evaluated callee receiver args demand) s =
    .ok given s₁
  checks : w.carryOut levels mood path (Rule.callSite w.setting.rules callee demand given) s₁ =
    .ok (Invocation.resolved w.setting.rules demand.block given) s₂
  reads : w.carryOut levels mood path
    (Plan.forEach (fun i init => Rule.fieldInit w.setting.rules i init demand) inits) s₂ =
    .ok captured s₃

variable (w : Walker) {levels : Nat} {mood : Mood} {path : Path} {e : Expr} {demand : Demand}
  {s t : State} {scope : Scope} {receiver : Option Expr} {callee : Method} {args : List Argument}
  {inits : List FieldInit}

/-- An invocation that succeeds has taken its steps and come to a conclusion. -/
theorem invocation_cases (hform : e.form.Invokes receiver callee args inits)
    (h : w.carryOut levels mood path (Rule.expr w.setting e demand) s = .ok scope t) :
    ∃ given s₁ s₂ captured s₃,
      w.Prepares levels mood path receiver callee args inits demand s given s₁ s₂ captured s₃ ∧
      w.carryOut levels mood path (Rule.concluded w.setting.rules e callee demand
        (Invocation.resolved w.setting.rules demand.block given) captured) s₃ = .ok scope t := by
  rw [Rule.expr_invokes w.setting demand hform, carryOut_bind, Ending.andThen_eq_ok] at h
  obtain ⟨given, s₁, hgiven, h⟩ := h
  rw [carryOut_bind, Ending.andThen_eq_ok] at h
  obtain ⟨bound, s₂, hsite, h⟩ := h
  rw [carryOut_bind, Ending.andThen_eq_ok] at h
  obtain ⟨captured, s₃, hinits, h⟩ := h
  obtain ⟨rfl, -⟩ := Rule.callSite_cases hsite
  exact ⟨given, s₁, s₂, captured, s₃, ⟨hgiven, hsite, hinits⟩, h⟩

/-- A scope that is held against a target is the answer, and it is reported if it is narrower. No
record changes. -/
theorem settle_cases {answer : Scope} {finding : Finding}
    (h : w.carryOut levels mood path (Plan.settle demand answer finding) s = .ok scope t) :
    scope = answer ∧ t.lifetimes = s.lifetimes ∧ (mood.quiet = false →
      t.journal.diagnostics.toList = s.journal.diagnostics.toList ++
        if answer.narrowerThan demand.target then [finding.inRegion mood.region] else []) := by
  unfold Plan.settle Plan.reportIf at h
  split at h
  · next hn =>
    cases h
    refine ⟨rfl, s.lifetimes_tell mood _, fun hq => ?_⟩
    simp [hn, State.tell, hq, State.note, Journal.diagnostics_push, Event.diagnostic?]
  · next hn =>
    cases h
    refine ⟨rfl, rfl, fun _ => ?_⟩
    simp [hn]

private theorem concluded_lifetimes {bound : List Actual} {captured : List Scope}
    (h : w.carryOut levels mood path
      (Rule.concluded w.setting.rules e callee demand bound captured) s = .ok scope t) :
    t.lifetimes = s.lifetimes := by
  unfold Rule.concluded at h
  split at h
  · exact (w.settle_cases h).2.1
  · cases h
    rfl

/-- An object creation that succeeds has evaluated its arguments, checked the call site and read the
values of its fields. Where the new object is not ref-like, that is all. -/
theorem creation_cases
    (h : w.carryOut levels mood path
      (Rule.objectCreation w.setting.rules e callee args inits demand) s = .ok scope t) :
    ∃ given s₁ bound s₂ captured s₃,
      w.carryOut levels mood path (Rule.evaluated callee none args demand) s = .ok given s₁ ∧
      w.carryOut levels mood path (Rule.callSite w.setting.rules callee demand given) s₁ =
        .ok bound s₂ ∧
      w.carryOut levels mood path
        (Plan.forEach (fun i init => Rule.fieldInit w.setting.rules i init demand) inits) s₂ =
        .ok captured s₃ ∧
      t.lifetimes = s₃.lifetimes ∧
      (e.ty.isRefLike = false → scope = demand.rvalue .callingMethod ∧ t = s₃) := by
  let creation : Expr := ⟨.objectCreation callee args inits, e.ty, e.span⟩
  have hform : creation.form.Invokes none callee args inits := .creation
  obtain ⟨given, s₁, s₂, captured, s₃, ⟨hgiven, hsite, hinits⟩, hrun⟩ := w.invocation_cases hform h
  refine ⟨given, s₁, _, s₂, captured, s₃, hgiven, hsite, hinits, w.concluded_lifetimes hrun,
    fun hty => ?_⟩
  have hcarries : creation.carries demand = false := by
    simp [Expr.carries, creation, hty]
  rw [Rule.concluded, hcarries] at hrun
  cases hrun
  exact ⟨rfl, rfl⟩

/-- What is carried out for a node records nothing of locals that are not declared on the way. -/
theorem carryOut_recordsOnly {α : Type} {hazard : Prop} {Q : α → Prop} {todo : List Stop}
    {plan : Plan α} (htours : Plan.Tours demand hazard Q [] todo plan) {a : α}
    (h : w.carryOut levels mood path plan s = .ok a t) :
    s.RecordsOnly (Stop.ids (Node.ids w.setting levels) todo) t := by
  have hr : s.RecordsOnly (Stop.ids (Node.ids w.setting levels) todo)
      (Ending.state (w.carryOut levels mood path plan s)) := by
    refine htours.run_recordsOnly (fun part hp asked inner s => ?_) (by simp)
      (List.Subset.refl _) s
    exact w.visit_recordsOnly_ids levels inner (path ++ part.route) part.node asked hp s
  rwa [h] at hr

/-- What is carried out for a node leaves a place unremembered that lies apart from its stops. -/
theorem carryOut_fresh {α : Type} {hazard : Prop} {Q : α → Prop} {todo : List Stop}
    {plan : Plan α} (htours : Plan.Tours demand hazard Q [] todo plan) {a : α}
    (h : w.carryOut levels mood path plan s = .ok a t) {route : Path}
    (hapart : Stop.All (·.route.Apart route) todo) (hs : s.Fresh (path ++ route)) :
    t.Fresh (path ++ route) := by
  have hkeeps : Persistent fun s t : State => s.Fresh (path ++ route) → t.Fresh (path ++ route) :=
    ⟨fun _ h => h, fun h h' hs => h' (h hs), fun _ _ h => h, fun _ _ _ h => h⟩
  have hr : State.Fresh (path ++ route) (Ending.state (w.carryOut levels mood path plan s)) := by
    refine htours.persists hkeeps (fun _ h => by cases h) (fun part hp asked inner s hs => ?_) s hs
    have hother := w.visit_sameOutside levels inner (path ++ part.route) part.node asked s
    exact hs.of_sameOutside hother ((Path.apart_append_left path _ _).mpr (hapart part hp))
  rwa [h] at hr

private theorem fieldInits_recordsOnly {captured : List Scope}
    (h : w.carryOut levels mood path
      (Plan.forEach (fun i init => Rule.fieldInit w.setting.rules i init demand) inits) s =
      .ok captured t) :
    s.RecordsOnly (Stop.ids (Node.ids w.setting levels) (Stop.inits inits)) t := by
  have htours : Plan.Tours demand True (fun _ => True) [] (Stop.inits inits)
      (Plan.forEach (fun i init => Rule.fieldInit w.setting.rules i init demand) inits) :=
    Plan.Tours.forEach (fun i init => Rule.fieldInit_tours w.setting.rules i init) inits 0
  exact w.carryOut_recordsOnly htours h

/-- What an invocation records beyond its arguments: the variables among them get the scope that is
inferred from the others, and after that the values of fields may declare locals. -/
theorem invocation_records (hform : e.form.Invokes receiver callee args inits)
    (h : w.carryOut levels mood path (Rule.expr w.setting e demand) s = .ok scope t) :
    ∃ given s₁,
      w.carryOut levels mood path (Rule.evaluated callee receiver args demand) s = .ok given s₁ ∧
      ∀ id, id ∉ Stop.ids (Node.ids w.setting levels) (Stop.inits inits) →
        t.lifetimes.get? id = (s₁.lifetimes.get? id).or
          ((Rule.firstNamed id (Argument.outVars receiver args)).map (Rule.designated demand
            (Invocation.inferredScope demand.block
              (Invocation.contributions w.setting.rules given)))) := by
  obtain ⟨given, s₁, s₂, captured, s₃, ⟨hgiven, hsite, hinits⟩, hrun⟩ := w.invocation_cases hform h
  refine ⟨given, s₁, hgiven, fun id hid => ?_⟩
  rw [w.concluded_lifetimes hrun, w.fieldInits_recordsOnly hinits id hid,
    Rule.callSite_get? _ callee demand hsite id, Rule.evaluated_outVars hgiven]

end Walker

end RefLifetime
