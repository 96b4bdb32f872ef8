import RefLifetime.Options
import RefLifetime.Plan

/-!
# Locals, parameters and fields

How far the location and the value of a variable may be carried, and what is reported when a demand
goes further.
-/

namespace RefLifetime

/-- What the rules depend on besides the node itself. -/
structure Setting where
  rules : Rules
  /-- The method being analysed. -/
  method : Method

/-- The scope that a return statement requires of its operand. -/
def Rules.returnScope : Rules → Scope
  | legacy => .callingMethod
  | updated => .returnOnly

/-- Answers with `scope`, and reports the finding if that is narrower than demanded. -/
def Plan.settle (demand : Demand) (scope : Scope) (finding : Finding) : Plan Scope := do
  Plan.reportIf (scope.narrowerThan demand.target) finding
  return scope

/-- The location of a local does not reach `target`. -/
def Local.refFinding (var : Local) (span : Span) (target : Scope) : Finding :=
  let returnable := var.kind.isReturnableByRef || var.passing.isByRef
  let kind := Violation.ofLocalRef target returnable
  match kind with
  | .refReturnLocal => ⟨kind, span, [var.name, var.span.line.repr]⟩
  | .refReturnNonreturnableLocal => ⟨kind, span, [var.name, var.kind.keyword]⟩
  | _ => ⟨kind, span, [var.name]⟩

namespace Param

/-- How far the value of a parameter may be carried. -/
def valueScope (p : Param) (rules : Rules) : Scope :=
  if p.modifier = .scopedValue || p.nonEscaping then .currentMethod
  else if p.passing = .byOut && rules.isUpdated then .returnOnly
  else .callingMethod

/-- How far the location of a parameter may be carried. -/
def refScope (p : Param) (rules : Rules) : Scope :=
  if p.passing = .byValue || p.modifier = .scopedRef then .currentMethod
  else
    match rules with
    | .legacy => if p.isThis then .currentMethod else .callingMethod
    | .updated => if p.isImplicitlyScoped then .currentMethod else .returnOnly

/-- The location of a parameter does not reach the target, its own scope being `scope`. -/
def refFinding (p : Param) (span : Span) (scope : Scope) : Finding :=
  if p.isThis then ⟨.refReturnStructThis, span, []⟩
  else
    let refScoped := p.passing.isByRef && scope = .currentMethod
    ⟨.ofParamRef false refScoped (scope = .returnOnly), span, [p.name]⟩

end Param

namespace Rule

/-- A local has the scopes recorded at its declaration. -/
def localVar (var : Local) (span : Span) (demand : Demand) : Plan Scope :=
  .lookup var.id fun
    | none => .fail (.undeclaredLocal var.name span)
    | some lifetime =>
      match demand.mode with
      | .ref => Plan.settle demand lifetime.ref (var.refFinding span demand.target)
      | .value => Plan.settle demand lifetime.value ⟨.escapeVariable, span, [var.name]⟩

/-- A parameter has the scopes that its declaration gives it under the rules. -/
def param (rules : Rules) (p : Param) (span : Span) (demand : Demand) : Plan Scope :=
  match demand.mode with
  | .ref => Plan.settle demand (p.refScope rules) (p.refFinding span (p.refScope rules))
  | .value => Plan.settle demand (p.valueScope rules) ⟨.escapeVariable, span, [p.name]⟩

/-- The receiver of the analysed method is a parameter of it. -/
def thisRef (setting : Setting) (span : Span) (demand : Demand) : Plan Scope :=
  match setting.method.receiver with
  | none => .fail (.missingReceiver setting.method.name span)
  | some p => param setting.rules p span demand

/-- A field lives as long as what holds it. Static fields and fields of heap objects may be carried
anywhere, and a ref field refers to something bounded by the value of the struct that holds it. The
receiver of a static field is not looked at. -/
def field (rules : Rules) (receiver : Option Expr) (member : Field) (demand : Demand) :
    Plan Scope :=
  match receiver, member.isStatic with
  | some holder, false =>
    let within := Plan.evaluate [.receiver] holder
    let anywhere := do discard (within demand.forValue); return .callingMethod
    match demand.mode with
    | .ref =>
      if member.passing.isByRef && rules.isUpdated then within (demand.withMode .value)
      else if holder.ty.isReference then anywhere
      else within demand
    | .value =>
      if member.container.isRefLike && member.ty.isRefLike then within demand else anywhere
  | _, _ => return .callingMethod

end Rule

end RefLifetime
