import RefLifetime.Rule.Assignment
import RefLifetime.Rule.Call

/-!
# Expressions

The rule for every form of expression: what is demanded of its parts, and how far its own value or
location may be carried.
-/

namespace RefLifetime

namespace Rule

/-- Something that lives on the stack of the current method. -/
def stackValue (kind : Violation) (e : Expr) (demand : Demand) : Plan Scope := do
  let escapes := demand.mode = .value && Scope.currentMethod.narrowerThan demand.target
  Plan.reportIf escapes ⟨kind, e.span, [e.ty.name]⟩
  return demand.rvalue .currentMethod

/-- Two operands that both end up in the result. -/
def joined (left right : Expr) (demand : Demand) : Plan Scope := do
  let l ← Plan.evaluate [.left] left demand.forOperand
  let r ← Plan.evaluate [.right] right demand.forOperand
  return demand.rvalue (l.join r)

/-- Two operands that are only read. -/
def readBoth (left right : Expr) (demand : Demand) : Plan Scope := do
  discard (Plan.evaluate [.left] left demand.forValue)
  discard (Plan.evaluate [.right] right demand.forValue)
  return demand.rvalue .callingMethod

/-- A choice lives as long as the shorter-lived branch. A choice between values has no location. -/
def conditional (condition whenTrue whenFalse : Expr) (byRef : Bool) (demand : Demand) :
    Plan Scope := do
  discard (Plan.evaluate [.condition] condition demand.forValue)
  if demand.isRef && !byRef then
    discard (Plan.evaluate [.left] whenTrue demand.forValue)
    discard (Plan.evaluate [.right] whenFalse demand.forValue)
    return demand.block
  else
    let l ← Plan.evaluate [.left] whenTrue demand
    let r ← Plan.evaluate [.right] whenFalse demand
    return l.join r

/-- One arm of a switch expression, matched against a value of scope `input`. -/
def arm (input : Scope) (demand : Demand) (i : Nat) (a : Arm) : Plan Scope := do
  pattern [.arm i, .pattern] input demand a.pattern
  Plan.evaluate? [.arm i, .guard] a.guard demand.forValue
  Plan.evaluate [.arm i, .body] a.value demand.forOperand

/-- How far the value or location of an expression may be carried. -/
def expr (setting : Setting) (e : Expr) (demand : Demand) : Plan Scope :=
  match e.form with
  | .literal | .defaultValue | .typeToken | .typeSize => return .callingMethod
  | .localVar var => localVar var e.span demand
  | .param p => param setting.rules p e.span demand
  | .thisRef => thisRef setting e.span demand
  | .field receiver member => field setting.rules receiver member demand
  | .arrayElement array indices => do
    discard (Plan.evaluate [.operand] array demand.forValue)
    discard (Plan.evaluateAll .index indices demand.forValue)
    -- Elements live in the array, on the heap.
    return .callingMethod
  | .call receiver callee args => call setting.rules e receiver callee args demand
  | .objectCreation constructor args inits =>
    objectCreation setting.rules e constructor args inits demand
  | .arrayCreation _ sizes elements => do
    discard (Plan.evaluateAll .size sizes demand.forValue)
    discard (Plan.evaluateAll .element elements demand.forHeap)
    return demand.rvalue .callingMethod
  | .delegateCreation receiver _ => do
    Plan.evaluate? [.receiver] receiver demand.forHeap
    return demand.rvalue .callingMethod
  | .stackAlloc count elements => do
    discard (Plan.evaluate [.operand] count demand.forValue)
    discard (Plan.evaluateAll .element elements demand.forValue)
    stackValue .escapeStackAlloc e demand
  | .collection elements =>
    if e.ty.isRefLike then do
      discard (Plan.evaluateAll .element elements demand.forValue)
      stackValue .collectionExpressionEscape e demand
    else do
      discard (Plan.evaluateAll .element elements demand.forHeap)
      return demand.rvalue .callingMethod
  | .conditional condition whenTrue whenFalse byRef =>
    conditional condition whenTrue whenFalse byRef demand
  | .coalesce left right => joined left right demand
  | .tuple elements => do
    let scopes ← Plan.evaluateAll .element elements demand.forOperand
    return demand.rvalue (Scope.joinAll scopes)
  | .conversion operand kind =>
    if kind.preservesLifetime then Plan.evaluate [.operand] operand demand
    else do
      discard (Plan.evaluate [.operand] operand demand.forValue)
      return demand.rvalue .callingMethod
  | .unary operand =>
    if e.ty.isRefLike then do
      return demand.rvalue (← Plan.evaluate [.operand] operand demand.forOperand)
    else do
      discard (Plan.evaluate [.operand] operand demand.forValue)
      return demand.rvalue .callingMethod
  | .binary left right =>
    if e.ty.isRefLike then joined left right demand else readBoth left right demand
  | .assignment left right byRef =>
    if byRef then refAssignment left right demand else valueAssignment left right demand
  | .compoundAssignment left right => readBoth left right demand
  | .outVar var => .lookup var.id fun
    | none => do
      designate var demand .callingMethod
      localVar var e.span demand
    | some _ => localVar var e.span demand
  -- A discard takes whatever the current block can hold.
  | .discard => return demand.block
  | .isPattern operand p => do
    let input ← Plan.evaluate [.operand] operand demand.forValue
    pattern [.pattern] input demand p
    return demand.rvalue .callingMethod
  | .switch governing arms => do
    let input ← Plan.evaluate [.operand] governing demand.forValue
    let scopes ← Plan.forEach (arm input demand) arms
    return demand.rvalue (Scope.joinAll scopes)

end Rule

end RefLifetime
