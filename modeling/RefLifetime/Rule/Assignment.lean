import RefLifetime.Rule.Place

/-!
# Assignments

A stored value has to live as long as what holds it, and a reference may be re-pointed only to a
location that lives as long as the reference.
-/

namespace RefLifetime

namespace Rule

/-- The right side is required to reach the value scope of the left side. -/
def valueAssignment (left right : Expr) (demand : Demand) : Plan Scope := do
  let target ← Plan.evaluate [.left] left demand.forValue
  let value ← Plan.evaluate [.right] right (demand.requiring .value target)
  return demand.rvalue value

/-- The location on the right has to live as long as the one on the left. If it does, the values of
ref structs are compared in the same way. -/
def refAssignment (left right : Expr) (demand : Demand) : Plan Scope := do
  let target ← Plan.evaluate [.left] left demand.forRef
  let referent ← Plan.evaluate [.right] right demand.forRef
  let names := [left.name, right.name]
  if referent.narrowerThan target then
    .report ⟨.ofRefAssign referent, right.span, names⟩ (return ())
  else if left.ty.isRefLike then
    let held ← Plan.evaluateQuietly [.left] left demand.forValue
    let value ← Plan.evaluateQuietly [.right] right demand.forValue
    Plan.reportIf (value.narrowerThan held) ⟨.refAssignValueNarrower, right.span, names⟩
  match demand.mode with
  | .ref => return referent
  | .value => Plan.evaluateQuietly [.right] right demand.forValue

end Rule

end RefLifetime
