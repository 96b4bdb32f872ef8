import RefLifetime.Scope

/-!
# Violations of the escape rules

The kinds of violations, and the choice among related kinds. Whether a violation is an error or a
warning depends on the region it stands in and is decided elsewhere.
-/

namespace RefLifetime

/-- The kinds of violations. -/
inductive Violation where
  | refReturnLocal
  | refReturnNonreturnableLocal
  | escapeVariable
  | refReturnParameter
  | refReturnScopedParameter
  | refReturnOnlyParameter
  | refReturnParameterMember
  | refReturnScopedParameterMember
  | refReturnOnlyParameterMember
  | refReturnStructThis
  | escapeStackAlloc
  | collectionExpressionEscape
  | escapeCall
  | escapeCallMember
  | callArgMixing
  | nonEscapingArgument
  | refAssignNarrower
  | refAssignReturnOnly
  | refAssignValueNarrower
  deriving DecidableEq, Repr

namespace Violation

/-- All kinds of violations, in the order that listings follow. -/
def all : List Violation :=
  [refReturnLocal, refReturnNonreturnableLocal, escapeVariable, refReturnParameter,
    refReturnScopedParameter, refReturnOnlyParameter, refReturnParameterMember,
    refReturnScopedParameterMember, refReturnOnlyParameterMember, refReturnStructThis,
    escapeStackAlloc, collectionExpressionEscape, escapeCall, escapeCallMember, callArgMixing,
    nonEscapingArgument, refAssignNarrower, refAssignReturnOnly, refAssignValueNarrower]

/-- The name of a kind, without its severity. -/
def name : Violation → String
  | refReturnLocal => "RefReturnLocal"
  | refReturnNonreturnableLocal => "RefReturnNonreturnableLocal"
  | escapeVariable => "EscapeVariable"
  | refReturnParameter => "RefReturnParameter"
  | refReturnScopedParameter => "RefReturnScopedParameter"
  | refReturnOnlyParameter => "RefReturnOnlyParameter"
  | refReturnParameterMember => "RefReturnParameter2"
  | refReturnScopedParameterMember => "RefReturnScopedParameter2"
  | refReturnOnlyParameterMember => "RefReturnOnlyParameter2"
  | refReturnStructThis => "RefReturnStructThis"
  | escapeStackAlloc => "EscapeStackAlloc"
  | collectionExpressionEscape => "CollectionExpressionEscape"
  | escapeCall => "EscapeCall"
  | escapeCallMember => "EscapeCall2"
  | callArgMixing => "CallArgMixing"
  | nonEscapingArgument => "NonEscapingArgument"
  | refAssignNarrower => "RefAssignNarrower"
  | refAssignReturnOnly => "RefAssignReturnOnly"
  | refAssignValueNarrower => "RefAssignValueNarrower"

/-- The location of a local does not reach `target`. Only when that is a return target does it
matter whether the local could be returned by reference at all. -/
def ofLocalRef (target : Scope) (returnable : Bool) : Violation :=
  if !target.isReturnTarget then escapeVariable
  else if returnable then refReturnLocal
  else refReturnNonreturnableLocal

/-- The location of a parameter, or of a member reached through it, does not reach the target. A
location scoped to the method is reported as such even if it is return-only as well. -/
def ofParamRef (member refScoped returnOnly : Bool) : Violation :=
  match member, refScoped, returnOnly with
  | false, true, _ => refReturnScopedParameter
  | false, false, true => refReturnOnlyParameter
  | false, false, false => refReturnParameter
  | true, true, _ => refReturnScopedParameterMember
  | true, false, true => refReturnOnlyParameterMember
  | true, false, false => refReturnParameterMember

/-- The result of a call, or the location it returns, does not reach the target. -/
def ofCallResult (byRef : Bool) : Violation := if byRef then escapeCallMember else escapeCall

/-- A reference is re-pointed to a location of the narrower scope `right`. -/
def ofRefAssign (right : Scope) : Violation :=
  match right with
  | .returnOnly => refAssignReturnOnly
  | _ => refAssignNarrower

end Violation

end RefLifetime
