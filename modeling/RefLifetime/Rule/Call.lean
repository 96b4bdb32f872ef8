import RefLifetime.Rule.Invocation
import RefLifetime.Rule.Pattern

/-!
# Calls and object creation

Arguments are evaluated in order, receiver first. Then the call site as a whole is checked, and last
the result is held against the demand.
-/

namespace RefLifetime

namespace Rule

/-- Evaluates an argument for the scopes that the call site needs. Violations are reported by the
evaluation that matches how the argument is passed. A declared variable is not evaluated. -/
def actual (route : Path) (e : Expr) (param : Option Param) (passing : Passing) (demand : Demand) :
    Plan Actual :=
  match e.form with
  | .outVar var => return ⟨e, param, passing, some var, .callingMethod, some demand.block⟩
  | _ =>
    if passing.isByRef then do
      let ref ← Plan.evaluate route e demand.forRef
      let value ← Plan.evaluateQuietly route e demand.forValue
      return ⟨e, param, passing, none, value, some ref⟩
    else do
      let value ← Plan.evaluate route e demand.forValue
      return ⟨e, param, passing, none, value, none⟩

/-- Evaluates arguments, each bound to the parameter at its position. -/
def actuals (callee : Method) (args : List Argument) (demand : Demand) : Plan (List Actual) :=
  Plan.forEach (fun i arg => actual [.argument i] arg.value callee.params[i]? arg.passing demand)
    args

/-- Evaluates the receiver of a call, if it has one, as an argument for the callee's own
receiver. -/
def receiverActual (callee : Method) (receiver : Option Expr) (demand : Demand) :
    Plan (List Actual) :=
  match receiver with
  | none => return []
  | some e => do
    let passing := (callee.receiver.map (·.passing)).getD .byValue
    return [← actual [.receiver] e callee.receiver passing demand]

/-- Declares the variables among the arguments that are not declared yet. -/
def declareOutVars (demand : Demand) (scope : Scope) : List Actual → Plan Unit
  | [] => return ()
  | a :: rest => do
    match a.outVar with
    | none => pure ()
    | some var => .lookup var.id fun
      | none => designate var demand scope
      | some _ => return ()
    declareOutVars demand scope rest

/-- Reports findings in order. -/
def reportAll : List Finding → Plan Unit
  | [] => return ()
  | finding :: rest => .report finding (reportAll rest)

/-- Passes on hints in order. -/
def hintAll : List Nat → Plan Unit
  | [] => return ()
  | id :: rest => .hint id (hintAll rest)

/-- Checks evaluated arguments against each other and against what the callee promises, and gives
the variables that they declare their scopes. -/
def callSite (rules : Rules) (callee : Method) (demand : Demand) (given : List Actual) :
    Plan (List Actual) := do
  let brought := Invocation.contributions rules given
  let inferred := Invocation.inferredScope demand.block brought
  declareOutVars demand inferred given
  let bound := Invocation.infer inferred given
  reportAll (Invocation.mixingFindings rules callee brought bound)
  reportAll (bound.filterMap (Invocation.leakFinding? callee))
  hintAll (bound.filterMap Invocation.stackArray?)
  return bound

/-- A call carries what its callee may hand back: the narrowest scope that flows from the arguments.
A result that cannot carry anything is a plain value. -/
def call (rules : Rules) (e : Expr) (receiver : Option Expr) (callee : Method)
    (args : List Argument) (demand : Demand) : Plan Scope := do
  let given := (← receiverActual callee receiver demand) ++ (← actuals callee args demand)
  let bound ← callSite rules callee demand given
  let carries := if demand.isRef then callee.returnsByRef else e.ty.isRefLike
  if carries then
    let (scope, culprit) := Invocation.escape rules e.ty demand bound
    let args := [callee.name, Invocation.culpritName bound culprit]
    Plan.settle demand scope ⟨.ofCallResult demand.isRef, e.span, args⟩
  else
    return demand.rvalue .callingMethod

/-- Evaluates the initial value of a field. The answer is what the new object captures of it: ref
fields capture a location under the updated rules, other fields a ref-like value. -/
def fieldInit (rules : Rules) (i : Nat) (init : FieldInit) (demand : Demand) : Plan Scope := do
  let byRef := init.field.passing.isByRef
  let scope ← Plan.evaluate [.init i] init.value (if byRef then demand.forRef else demand.forValue)
  let captured := if byRef then rules.isUpdated else init.field.ty.isRefLike
  return if captured then scope else .callingMethod

/-- A new ref struct carries what its constructor may keep and what its fields are given. Any other
new object is a plain value. -/
def objectCreation (rules : Rules) (e : Expr) (constructor : Method) (args : List Argument)
    (inits : List FieldInit) (demand : Demand) : Plan Scope := do
  let bound ← callSite rules constructor demand (← actuals constructor args demand)
  let initialized ← Plan.forEach (fun i init => fieldInit rules i init demand) inits
  if !demand.isRef && e.ty.isRefLike then
    let (scope, culprit) := Invocation.escape rules e.ty demand bound
    let args := [constructor.name, Invocation.culpritName bound culprit]
    Plan.settle demand (scope.join (Scope.joinAll initialized))
      ⟨.ofCallResult false, e.span, args⟩
  else
    return demand.rvalue .callingMethod

end Rule

end RefLifetime
