import RefLifetime.Rule.Place

/-!
# Arguments of an invocation

What a callee may do with its arguments, once their scopes are known: hand them back through its
result, or store one of them through another. Everything here is a function of the evaluated
arguments, receiver first.
-/

namespace RefLifetime

/-- An argument, or the receiver, with its scopes. -/
structure Actual where
  expr : Expr
  /-- The parameter it is bound to; superfluous arguments have none. -/
  param : Option Param
  passing : Passing
  /-- The variable that the argument declares, if it does. -/
  outVar : Option Local
  value : Scope
  /-- Present when the argument is passed by reference. -/
  ref : Option Scope

/-- The callee may keep the reference passed for this parameter. -/
def Param.mayCaptureRef (p : Param) (rules : Rules) : Bool :=
  p.passing.isByRef && p.modifier != .scopedRef && !(rules.isUpdated && p.isImplicitlyScoped)

/-- A scope that an argument brings to what the callee may store. -/
structure Contribution where
  /-- The position of the argument. -/
  source : Nat
  scope : Scope
  /-- It is the argument's location that is brought, not its value. -/
  viaRef : Bool
  deriving DecidableEq, Repr

namespace Actual

/-- How a message names the parameter of an argument. -/
def paramName (a : Actual) : String :=
  match a.param with
  | none => "?"
  | some p => p.name

/-- What the argument at position `i` brings: its value if that is ref-like, and its location if the
callee may capture it. Declared variables bring nothing. -/
def contributions (rules : Rules) (a : Actual) (i : Nat) : List Contribution :=
  match a.param, a.outVar with
  | some p, none =>
    (if a.expr.ty.isRefLike && p.modifier != .scopedValue then [⟨i, a.value, false⟩] else []) ++
      match a.ref with
      | some ref => if rules.isUpdated && p.mayCaptureRef rules then [⟨i, ref, true⟩] else []
      | none => []
  | _, _ => []

/-- The parameter through which the callee can store a ref struct into the argument. -/
def mixableParam? (rules : Rules) (a : Actual) : Option Param :=
  match a.param, a.outVar with
  | some p, none =>
    if p.passing.isWritable && (p.passing != .byOut || rules.isUpdated) && p.ty.isRefLike then
      some p
    else none
  | _, _ => none

/-- What the result of an invocation may carry of the argument, if it is bound to a parameter. -/
def flows? (rules : Rules) (capturesRefs : Bool) (a : Actual) : Option (List Scope) :=
  a.param.map fun p =>
    (if p.modifier != .scopedValue then [a.value] else []) ++
      match a.ref with
      | some ref => if capturesRefs && p.mayCaptureRef rules then [ref] else []
      | none => []

end Actual

namespace Invocation

/-- Everything that the arguments bring to what the callee may store, in order. -/
def contributions (rules : Rules) (actuals : List Actual) : List Contribution :=
  actuals.zipIdx.flatMap fun (a, i) => a.contributions rules i

/-- Joins scopes until nothing narrower than the block can be reached. -/
def joinUntil (block : Scope) (found : Scope) : List Scope → Scope
  | [] => found
  | scope :: rest =>
    if block ≤ found.join scope then found.join scope else joinUntil block (found.join scope) rest

/-- The scope of a variable that the arguments declare: the narrowest that any of them could have
written into it. -/
def inferredScope (block : Scope) (brought : List Contribution) : Scope :=
  joinUntil block .callingMethod (brought.map (·.scope))

/-- Gives the declared variables their inferred scope. -/
def infer (scope : Scope) (actuals : List Actual) : List Actual :=
  actuals.map fun a => if a.outVar.isSome then { a with value := scope } else a

/-- The first occurrences of the members of a list. -/
def distinct : List Nat → List Nat
  | [] => []
  | i :: rest => i :: (distinct rest).filter (· != i)

/-- Keeping first occurrences loses no member. -/
theorem mem_distinct {i : Nat} {xs : List Nat} : i ∈ distinct xs ↔ i ∈ xs := by
  induction xs with
  | nil => simp [distinct]
  | cons x rest ih =>
    by_cases h : i = x
    · simp [distinct, h]
    · simp [distinct, h, ih]

/-- First occurrences are not repeated. -/
theorem nodup_distinct (xs : List Nat) : (distinct xs).Nodup := by
  induction xs with
  | nil => exact List.nodup_nil
  | cons x rest ih =>
    refine List.nodup_cons.mpr ⟨?_, ih.filter _⟩
    simp

/-- The sources of what may not be stored into the argument at position `i`, because it is narrower
than the argument's value. -/
def mixedInto (rules : Rules) (brought : List Contribution) (target : Actual) (i : Nat) :
    List Nat :=
  match target.mixableParam? rules with
  | none => []
  | some p =>
    (brought.filter fun c =>
      c.source != i && (!c.viaRef || p.ty.holdsRefs) && c.scope.narrowerThan target.value).map
        (·.source)

/-- The positions of the arguments that could be stored through another argument and outlive
themselves there, each once, in the order they are found. -/
def mixed (rules : Rules) (brought : List Contribution) (actuals : List Actual) : List Nat :=
  distinct (actuals.zipIdx.flatMap fun (a, i) => mixedInto rules brought a i)

/-- The findings about arguments that could be stored through another. -/
def mixingFindings (rules : Rules) (callee : Method) (brought : List Contribution)
    (actuals : List Actual) : List Finding :=
  (mixed rules brought actuals).filterMap fun i =>
    actuals[i]?.map fun a => ⟨.callArgMixing, a.expr.span, [callee.name, a.paramName]⟩

/-- The finding about a confined reference that is passed by value to a callee which has not
promised to keep it. -/
def leakFinding? (callee : Method) (a : Actual) : Option Finding :=
  match a.param with
  | none => none
  | some p =>
    if !a.passing.isByRef && p.ty.isReference && !p.nonEscaping &&
        a.value.narrowerThan .returnOnly then
      some ⟨.nonEscapingArgument, a.expr.span, [callee.name, p.name]⟩
    else none

/-- The array that may be allocated on the stack, because the callee promises not to leak it. -/
def stackArray? (a : Actual) : Option Nat :=
  match a.param, a.expr.form with
  | some p, .arrayCreation id _ _ => if p.isParams && p.nonEscaping then some id else none
  | _, _ => none

/-- Takes `scope`, and the argument at position `i` as the one to blame, if that is narrower. -/
def blame (i : Nat) (found : Scope × Option Nat) (scope : Scope) : Scope × Option Nat :=
  if scope.narrowerThan found.1 then (scope, some i) else found

/-- The search behind `escape`, from the argument at position `i` on. -/
def escapeFrom (block : Scope) (i : Nat) (found : Scope × Option Nat) :
    List (Option (List Scope)) → Scope × Option Nat
  | [] => found
  | none :: rest => escapeFrom block (i + 1) found rest
  | some flows :: rest =>
    let found := flows.foldl (blame i) found
    if block ≤ found.1 then found else escapeFrom block (i + 1) found rest

/-- How far the result of an invocation may be carried, and the position of the argument that limits
it. The search stops when nothing narrower than the block can be found. -/
def escape (rules : Rules) (resultTy : Ty) (demand : Demand) (actuals : List Actual) :
    Scope × Option Nat :=
  let capturesRefs := demand.isRef || !rules.isUpdated || resultTy.holdsRefs
  escapeFrom demand.block 0 (.callingMethod, none) (actuals.map (·.flows? rules capturesRefs))

/-- How a message names the parameter to blame. -/
def culpritName (actuals : List Actual) (culprit : Option Nat) : String :=
  match culprit.bind (actuals[·]?) with
  | none => ""
  | some a => a.paramName

end Invocation

end RefLifetime
