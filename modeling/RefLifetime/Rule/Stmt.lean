import RefLifetime.Rule.Expr

/-!
# Statements

A statement computes no scope of its own. It demands something of its expressions, declares locals
and opens blocks.
-/

namespace RefLifetime

namespace Rule

/-- The statements of a block that stands at `route` in its node. -/
def stmts (route : Path) (body : List Stmt) (demand : Demand) (region : Region := .checked) :
    Plan Unit :=
  discard (Plan.forEach (fun i s => Plan.perform (route ++ [.stmt i]) s demand region) body)

/-- The lifetime that a local's own modifier leaves of what its initial value gives. -/
def pinned (modifier : Modifier) (block : Scope) (lifetime : Lifetime) : Lifetime :=
  match modifier with
  | .unscoped => lifetime
  | .scopedRef => ⟨block, lifetime.value⟩
  | .scopedValue => ⟨lifetime.ref, block⟩

/-- A `ref` local stands for the location it is initialised with; any other local has a location of
its own in the block. -/
def declaration (route : Path) (d : Declaration) (demand : Demand) : Plan Unit := do
  let lifetime ← match d.init with
    | none => pure ⟨demand.block, .callingMethod⟩
    | some init =>
      if d.var.passing.isByRef then do
        let ref ← Plan.evaluate route init demand.forRef
        let value ← Plan.evaluateQuietly route init demand.forValue
        pure ⟨ref, value⟩
      else do
        let value ← Plan.evaluate route init demand.forValue
        pure ⟨demand.block, value⟩
  Plan.declaring d.var (pinned d.var.modifier demand.block lifetime)

/-- The iteration variable of a collection whose value has the scope `collection`. -/
def iteration (var : Local) (collection : Scope) (inner : Demand) : Plan Unit :=
  let ref := if var.passing.isByRef then collection else inner.block
  Plan.declaring var ⟨ref, carried var.ty collection⟩

/-- One section of a switch statement, matched against a value of scope `input`. -/
def switchSection (input : Scope) (inner : Demand) (i : Nat) (s : Section) : Plan Unit := do
  discard (Plan.forEach (fun j p => pattern [.arm i, .label j] input inner p) s.labels)
  Plan.evaluate? [.arm i, .guard] s.guard inner.forValue
  stmts [.arm i] s.body inner

/-- One handler of a try statement. Caught objects live on the heap. -/
def handler (inner : Demand) (i : Nat) (c : Catch) : Plan Unit := do
  match c.var with
  | none => pure ()
  | some var => Plan.declaring var ⟨inner.block, .callingMethod⟩
  Plan.evaluate? [.arm i, .guard] c.filter inner.forValue
  stmts [.arm i] c.body inner

/-- What a statement asks of its parts. -/
def stmt (setting : Setting) (s : Stmt) (demand : Demand) : Plan Unit :=
  let inner := demand.enterBlock
  match s with
  | .block body => stmts [] body inner
  | .declare d => declaration [.init 0] d demand
  | .eval value | .yieldReturn value => discard (Plan.evaluate [.operand] value demand.forValue)
  | .ret value =>
    let mode := if setting.method.returnsByRef then .ref else .value
    Plan.evaluate? [.operand] value (demand.requiring mode setting.rules.returnScope)
  | .ite condition whenTrue whenFalse => do
    discard (Plan.evaluate [.condition] condition demand.forValue)
    Plan.perform [.left] whenTrue demand
    match whenFalse with
    | none => pure ()
    | some other => Plan.perform [.right] other demand
  | .whileLoop condition body | .doLoop condition body => do
    discard (Plan.evaluate [.condition] condition demand.forValue)
    Plan.perform [.body] body demand
  | .forLoop inits condition increments body => do
    discard (Plan.forEach (fun i s => Plan.perform [.init i] s inner) inits)
    Plan.evaluate? [.condition] condition inner.forValue
    discard (Plan.evaluateAll .increment increments inner.forValue)
    Plan.perform [.body] body inner
  | .foreach var collection body => do
    let scope ← Plan.evaluate [.operand] collection demand.forValue
    iteration var scope inner
    Plan.perform [.body] body inner
  | .using resources body => do
    discard (Plan.forEach (fun i d => declaration [.init i] d inner) resources)
    Plan.perform [.body] body inner
  | .switch governing sections => do
    let input ← Plan.evaluate [.operand] governing demand.forValue
    discard (Plan.forEach (switchSection input inner) sections)
  | .tryCatch body catches cleanup => do
    stmts [.body] body inner
    discard (Plan.forEach (handler inner) catches)
    match cleanup with
    | none => pure ()
    | some final => stmts [.cleanup] final inner
  | .throw value => Plan.evaluate? [.operand] value demand.forHeap
  | .break | .continue | .empty => return ()
  | .uncheckedBlock body => stmts [] body inner .unchecked

/-- What a node asks of its parts, and the scope it answers with. -/
def node (setting : Setting) (n : Node) (demand : Demand) : Plan Scope :=
  match n with
  | .expr e => expr setting e demand
  | .stmt s => do
    stmt setting s demand
    return .unused

end Rule

end RefLifetime
