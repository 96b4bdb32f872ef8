import RefLifetime.Proofs.Keeping

/-!
# Where both sets of rules coincide

The sets of rules differ in what they make of references that are passed or stored: by-ref
parameters, the receivers of structs and ref fields. Where there are none, the rule for an
expression is the same plan under both, and so is the visit of the expression.
-/

namespace RefLifetime

/-- No parameter or field that the node itself refers to is a reference. -/
structure Node.RefFree (node : Node) : Prop where
  params : ∀ p ∈ node.params, p.passing = .byValue
  fields : ∀ f ∈ node.fields, f.passing = .byValue

/-- The argument is not bound to a reference. -/
def Actual.RefFree (a : Actual) : Prop := ∀ p, a.param = some p → p.passing = .byValue

/-! ### Parameters and arguments -/

namespace Param

variable {p : Param} (h : p.passing = .byValue)

include h

private theorem mayCaptureRef_of_byValue (rules : Rules) : p.mayCaptureRef rules = false := by
  simp [mayCaptureRef, h, Passing.isByRef]

/-- A parameter that is passed by value lives in the method, whatever the rules. -/
theorem refScope_of_byValue (rules : Rules) : p.refScope rules = .currentMethod := by
  simp [refScope, h]

private theorem valueScope_of_byValue (rules rules' : Rules) :
    p.valueScope rules = p.valueScope rules' := by
  simp [valueScope, h]

end Param

namespace Actual

variable {a : Actual} (h : a.RefFree) (rules rules' : Rules)

include h

private theorem contributions_rules (i : Nat) :
    a.contributions rules i = a.contributions rules' i := by
  unfold contributions
  split
  · next p hp _ =>
    rw [Param.mayCaptureRef_of_byValue (h p hp), Param.mayCaptureRef_of_byValue (h p hp),
      Bool.and_false, Bool.and_false]
  · rfl

/-- Nothing can be stored through an argument that is passed by value. -/
theorem mixableParam?_eq_none : a.mixableParam? rules = none := by
  unfold mixableParam?
  split
  · next p hp _ =>
    rw [h p hp]
    rfl
  · rfl

private theorem flows?_rules (captures captures' : Bool) :
    a.flows? rules captures = a.flows? rules' captures' := by
  unfold flows?
  cases hp : a.param with
  | none => rfl
  | some p =>
    simp only [Option.map_some, Param.mayCaptureRef_of_byValue (h p hp), Bool.and_false]

end Actual

namespace Invocation

variable {given : List Actual} (h : ∀ a ∈ given, a.RefFree)

include h

private theorem infer_refFree (scope : Scope) : ∀ a ∈ infer scope given, a.RefFree := by
  intro a ha
  obtain ⟨b, hb, rfl⟩ := List.mem_map.mp ha
  split
  · exact h b hb
  · exact h b hb

variable (rules rules' : Rules)

private theorem contributions_rules : contributions rules given = contributions rules' given := by
  unfold contributions
  rw [List.flatMap_def, List.flatMap_def]
  congr 1
  apply List.map_congr_left
  intro x hx
  exact Actual.contributions_rules (h x.1 (List.fst_mem_of_mem_zipIdx hx)) rules rules' x.2

private theorem mixingFindings_rules (callee : Method) (brought : List Contribution) :
    mixingFindings rules callee brought given = [] := by
  have hmixed : mixed rules brought given = [] := by
    unfold mixed
    rw [List.flatMap_eq_nil_iff.mpr]
    · rfl
    · intro x hx
      change mixedInto rules brought x.1 x.2 = []
      rw [mixedInto, Actual.mixableParam?_eq_none (h x.1 (List.fst_mem_of_mem_zipIdx hx)) rules]
  rw [mixingFindings, hmixed]
  rfl

private theorem escape_rules (ty : Ty) (demand : Demand) :
    escape rules ty demand given = escape rules' ty demand given := by
  have hflows (captures captures' : Bool) :
      given.map (·.flows? rules captures) = given.map (·.flows? rules' captures') := by
    apply List.map_congr_left
    intro a ha
    exact Actual.flows?_rules (h a ha) rules rules' captures captures'
  unfold escape
  dsimp only
  rw [hflows]

end Invocation

/-! ### Expressions -/

/-- Plans with the same continuations for every result that the contract allows are the same. -/
theorem Plan.Honours.bind_congr {α β : Type} {node : Node} {block : Scope} {Q : α → Prop}
    {p : Plan α} (h : p.Honours (node.contract (fun _ => True) block) Q) {f g : α → Plan β}
    (hfg : ∀ a, Q a → f a = g a) : p >>= f = p >>= g := by
  change p.bind f = p.bind g
  induction p with
  | done a => exact hfg a h
  | fail cause => rfl
  | visit route part demand inner next ih =>
    have hnext := funext fun scope => ih scope (h.2 scope fun _ => trivial)
    exact congrArg (Plan.visit route part demand inner) hnext
  | lookup id next ih =>
    have hnext := funext fun found => ih found (h found fun _ _ => ⟨trivial, trivial⟩)
    exact congrArg (Plan.lookup id) hnext
  | declare var lifetime next ih => exact congrArg (Plan.declare var lifetime) (ih h.2)
  | report finding next ih => exact congrArg (Plan.report finding) (ih h)
  | hint id next ih => exact congrArg (Plan.hint id) (ih h)

private theorem Plan.forEach_congr {α β : Type} {f g : Nat → α → Plan β} {items : List α}
    (h : ∀ i, ∀ a ∈ items, f i a = g i a) (start : Nat) :
    Plan.forEach f items start = Plan.forEach g items start := by
  induction items generalizing start with
  | nil => rfl
  | cons item rest ih =>
    unfold Plan.forEach
    rw [h start item List.mem_cons_self, ih fun i a ha => h i a (List.mem_cons_of_mem _ ha)]

namespace Rule

variable (rules rules' : Rules)

private theorem param_rules {p : Param} (h : p.passing = .byValue) (span : Span) (demand : Demand) :
    param rules p span demand = param rules' p span demand := by
  unfold param
  rw [Param.refScope_of_byValue h, Param.refScope_of_byValue h,
    Param.valueScope_of_byValue h rules rules']

private theorem callSite_rules (callee : Method) (demand : Demand) {given : List Actual}
    (h : ∀ a ∈ given, a.RefFree) :
    callSite rules callee demand given = callSite rules' callee demand given := by
  have hinfer (scope : Scope) := Invocation.infer_refFree h scope
  unfold callSite
  simp only [Invocation.contributions_rules h rules rules',
    Invocation.mixingFindings_rules (hinfer _) rules,
    Invocation.mixingFindings_rules (hinfer _) rules']

private theorem fieldInit_rules {init : FieldInit} (h : init.field.passing = .byValue) (i : Nat)
    (demand : Demand) : fieldInit rules i init demand = fieldInit rules' i init demand := by
  simp [fieldInit, h, Passing.isByRef]

/-- Sound arguments are bound to parameters of the callee. -/
theorem refFree_of_sound {callee : Method} (h : ∀ p ∈ callee.signature, p.passing = .byValue)
    {locals : List Local} {given : List Actual}
    (hg : ∀ a ∈ given, a.Sound (fun _ => True) callee.signature locals) :
    ∀ a ∈ given, a.RefFree :=
  fun a ha p hp => h p ((hg a ha).param p hp)

private theorem call_rules {e : Expr} {receiver : Option Expr} {callee : Method}
    {args : List Argument} (h : ∀ p ∈ callee.signature, p.passing = .byValue) (demand : Demand) :
    call rules e receiver callee args demand = call rules' e receiver callee args demand := by
  have hc := Scope.closed_true demand.block
  let c := (Node.expr ⟨.call receiver callee args, e.ty, e.span⟩).contract (fun _ => True)
    demand.block
  have hown : (receiverActual callee receiver demand).Honours c _ :=
    receiverActual_honours hc callee receiver args rfl
  have hactuals : (actuals callee args demand).Honours c _ :=
    actuals_honours hc callee receiver args rfl
  refine hown.bind_congr fun own ho => hactuals.bind_congr fun given hg => ?_
  have hgiven := List.forall_mem_append.mpr ⟨ho, hg⟩
  have hsite : (callSite rules' callee demand (own ++ given)).Honours c _ :=
    callSite_honours hc rules' callee rfl hgiven
  dsimp only
  rw [callSite_rules rules rules' callee demand (refFree_of_sound h hgiven)]
  refine hsite.bind_congr fun bound hb => ?_
  rw [Invocation.escape_rules (refFree_of_sound h hb) rules rules']

private theorem objectCreation_rules {e : Expr} {constructor : Method} {args : List Argument}
    {inits : List FieldInit} (h : ∀ p ∈ constructor.signature, p.passing = .byValue)
    (hf : ∀ init ∈ inits, init.field.passing = .byValue) (demand : Demand) :
    objectCreation rules e constructor args inits demand =
      objectCreation rules' e constructor args inits demand := by
  have hc := Scope.closed_true demand.block
  let c := (Node.expr ⟨.objectCreation constructor args inits, e.ty, e.span⟩).contract
    (fun _ => True) demand.block
  have hactuals : (actuals constructor args demand).Honours c _ :=
    actuals_honours hc constructor none args rfl
  refine hactuals.bind_congr fun given hg => ?_
  have hsite : (callSite rules' constructor demand given).Honours c _ :=
    callSite_honours hc rules' constructor rfl hg
  rw [callSite_rules rules rules' constructor demand (refFree_of_sound h hg)]
  refine hsite.bind_congr fun bound hb => ?_
  rw [Plan.forEach_congr (fun i init hi => fieldInit_rules rules rules' (hf init hi) i demand)]
  dsimp only
  rw [Invocation.escape_rules (refFree_of_sound h hb) rules rules']

/-- The rule for an expression without references to parameters and fields that are references is
the same under all rules. -/
theorem expr_rules {method : Method} (hm : ∀ p ∈ method.signature, p.passing = .byValue) {e : Expr}
    (he : (Node.expr e).RefFree) (demand : Demand) :
    expr ⟨rules, method⟩ e demand = expr ⟨rules', method⟩ e demand := by
  obtain ⟨form, ty, span⟩ := e
  cases form with
  | param p => exact param_rules rules rules' (he.params p List.mem_cons_self) span demand
  | thisRef =>
    unfold expr thisRef
    dsimp only
    split
    · rfl
    · next p hp =>
      refine param_rules rules rules' (hm p (List.mem_append_left _ ?_)) span demand
      rw [hp]
      exact List.mem_singleton_self p
  | field receiver member =>
    have hf := he.fields member List.mem_cons_self
    simp [expr, field, hf, Passing.isByRef]
  | call receiver callee args => exact call_rules rules rules' he.params demand
  | objectCreation constructor args inits =>
    refine objectCreation_rules rules rules' he.params (fun init hi => ?_) demand
    exact he.fields _ (List.mem_map.mpr ⟨init, hi, rfl⟩)
  | _ => rfl

end Rule

/-! ### Visits -/

/-- Runs with visitors that agree on the parts of the node are the same. -/
theorem Plan.Honours.run_congr {α : Type} {node : Node} {stops : List Stop} {block : Scope}
    {Q : α → Prop} {p : Plan α}
    (h : p.Honours ((node.contract (fun _ => True) block).touring stops block) Q)
    {visit visit' : Visitor}
    (hv : ∀ q, .part q ∈ stops → ∀ demand inner s,
      visit q.route q.node demand inner s = visit' q.route q.node demand inner s)
    (mood : Mood) (s : State) : p.run visit mood s = p.run visit' mood s := by
  induction p generalizing s with
  | done a => rfl
  | fail cause => rfl
  | visit route part demand inner next ih =>
    obtain ⟨⟨-, q, hq, rfl, rfl, -⟩, hn⟩ := h
    have hnext := funext fun scope => funext fun t => ih scope (hn scope fun _ => trivial) t
    rw [run_visit, run_visit, hv q hq, hnext]
  | lookup id next ih => exact ih _ (h _ fun _ _ => ⟨trivial, trivial⟩) s
  | declare var lifetime next ih => exact ih h.2 _
  | report finding next ih => exact ih h _
  | hint id next ih => exact ih h _

namespace Walker

variable (w : Walker)

/-- The same walker under other rules. -/
def withRules (rules : Rules) : Walker := { w with setting := { w.setting with rules := rules } }

/-- Visits of expressions without references to parameters and fields that are references are the
same under all rules. -/
theorem visit_rules (rules : Rules) (hm : ∀ p ∈ w.setting.method.signature, p.passing = .byValue)
    (levels : Nat) (mood : Mood) (path : Path) {here : Standing} {e : Expr}
    (he : (Node.expr e).Throughout Node.RefFree here) (demand : Demand) (s : State) :
    (w.withRules rules).visit levels mood path (.expr e) demand s =
      w.visit levels mood path (.expr e) demand s := by
  induction levels generalizing mood path here e demand s with
  | zero => rfl
  | succ levels ih =>
    have hcompute : (w.withRules rules).compute (levels + 1) mood path (.expr e) demand =
        w.compute (levels + 1) mood path (.expr e) demand := by
      have hrule : Rule.node (w.withRules rules).setting (.expr e) demand =
          Rule.node w.setting (.expr e) demand :=
        Rule.expr_rules rules w.setting.rules hm he.own demand
      have hc := Scope.closed_true demand.block
      have hp : w.setting.Allows (fun _ => True) (.expr e) := fun _ _ => ⟨trivial, trivial⟩
      have hon := (Rule.node_tours w.setting (.expr e) demand).honours
        (Rule.node_honours hc (fun _ => Scope.closed_true _) hp) (List.Subset.refl _)
        fun _ hx => by cases hx
      funext s
      rw [compute_succ, compute_succ, hrule]
      refine hon.run_congr (fun q hq asked inner t => ?_) mood s
      obtain ⟨-, -, part, hpart⟩ := e.stops_inner w.setting q hq
      have hin := he.part w.setting hq
      rw [hpart] at hin ⊢
      exact ih inner (path ++ q.route) hin asked t
    change (w.withRules rules).remembering mood path (.expr e) demand
      ((w.withRules rules).compute (levels + 1) mood path (.expr e) demand) s = _
    rw [hcompute]
    rfl

end Walker

end RefLifetime
