import RefLifetime.Rule.Stmt

/-!
# Stops of a node

Whatever is demanded of a node, its rule calls at the same places in the same order: the parts of
the node and the sites that declare a local. `Node.stops` lists them. A part is asked for freely,
that is with no requirement beyond its block, or once and in a way that is fixed by the demand on
the whole. The receiver of a static field and a variable declared in argument position are no parts.
-/

namespace RefLifetime

/-- How a rule asks for a part. -/
inductive Asking where
  /-- For its value or its location, with no requirement beyond its block. -/
  | freely
  /-- Once, with a demand that follows from the one on the whole. -/
  | once (asked : Demand → Demand)
  /-- Once, for a value that may be stored in the location at `holder`. -/
  | into (holder : Path)

/-- A part of a node that is visited as a unit. -/
structure Part where
  /-- Where the part stands in its node. -/
  route : Path
  node : Node
  /-- The part stands in a block that the node opens. -/
  nested : Bool := false
  asking : Asking := .freely

/-- The block that a part stands in, given the one of the whole. -/
def Part.block (part : Part) (outer : Scope) : Scope :=
  if part.nested then outer.enterBlock else outer

/-- A place that a rule calls at. -/
inductive Stop where
  | part (part : Part)
  /-- The local `id` is declared here. -/
  | site (id : Nat)

/-- The variable that a form declares in argument position. -/
def Form.outVar? : Form → Option Local
  | .outVar var => some var
  | _ => none

namespace Stop

/-- An expression that is asked for freely. -/
def free (route : Path) (e : Expr) (nested : Bool := false) : Stop :=
  .part ⟨route, .expr e, nested, .freely⟩

/-- An expression that is asked for once. -/
def once (route : Path) (e : Expr) (asked : Demand → Demand) : Stop :=
  .part ⟨route, .expr e, false, .once asked⟩

/-- A statement in the block of the whole. -/
def stmt (route : Path) (s : Stmt) : Stop := .part ⟨route, .stmt s, false, .once id⟩

/-- A statement in a block that the whole opens. -/
def nestedStmt (route : Path) (s : Stmt) : Stop := .part ⟨route, .stmt s, true, .once .enterBlock⟩

/-- The stops for the members of a list, which are told their positions, counted from `start`. -/
def forEach {α : Type} (f : Nat → α → List Stop) (items : List α) (start : Nat := 0) : List Stop :=
  match items with
  | [] => []
  | item :: rest => f start item ++ forEach f rest (start + 1)

/-- The stops for something that may be absent. -/
def ofOption {α : Type} (f : α → List Stop) : Option α → List Stop
  | none => []
  | some a => f a

/-- The sites of variables that may be absent. -/
def outVars (vars : List (Option Local)) : List Stop := vars.filterMap (·.map (.site ·.id))

/-- An argument is a part unless it declares a variable. -/
def actual (route : Path) (e : Expr) : List Stop :=
  match e.form.outVar? with
  | some _ => []
  | none => [free route e]

end Stop

/-- What of the holder decides how far a field may be carried; nothing does if the field may be
carried anywhere. -/
def Field.limit? (member : Field) (rules : Rules) (holder : Expr) : Mode → Option Mode
  | .ref =>
    if member.passing.isByRef && rules.isUpdated then some .value
    else if holder.ty.isReference then none
    else some .ref
  | .value => if member.container.isRefLike && member.ty.isRefLike then some .value else none

/-- What the access to a field asks of the expression that holds it. -/
def Field.holderDemand (member : Field) (rules : Rules) (holder : Expr) (demand : Demand) :
    Demand :=
  match member.limit? rules holder demand.mode with
  | none => demand.forValue
  | some mode => demand.withMode mode

/-- What a choice asks of its branches. -/
def Demand.forBranch (byRef : Bool) (demand : Demand) : Demand :=
  if demand.isRef && !byRef then demand.forValue else demand

mutual

/-- The stops in a pattern that stands at `route` in its node. -/
def Pattern.stops (route : Path) (nested : Bool) : Pattern → List Stop
  | .discard | .type _ => []
  | .constant value | .relational value => [.free (route ++ [.operand]) value nested]
  | .declaration var => Stop.ofOption (fun v => [.site v.id]) var
  | .recursive properties var =>
    Pattern.propertyStops route nested 0 properties ++ Stop.ofOption (fun v => [.site v.id]) var
  | .list elements var =>
    Pattern.elementStops route nested 0 elements ++ Stop.ofOption (fun v => [.site v.id]) var
  | .slice none => []
  | .slice (some rest) => rest.stops (route ++ [.operand]) nested
  | .not inner => inner.stops (route ++ [.operand]) nested
  | .and left right | .or left right =>
    left.stops (route ++ [.left]) nested ++ right.stops (route ++ [.right]) nested

/-- The stops in the elements of a list pattern, counted from `i`. -/
def Pattern.elementStops (route : Path) (nested : Bool) (i : Nat) : List Pattern → List Stop
  | [] => []
  | p :: rest => p.stops (route ++ [.element i]) nested ++ elementStops route nested (i + 1) rest

/-- The stops in the fields of a recursive pattern, counted from `i`. -/
def Pattern.propertyStops (route : Path) (nested : Bool) (i : Nat) : List Property → List Stop
  | [] => []
  | ⟨_, p⟩ :: rest =>
    p.stops (route ++ [.element i]) nested ++ propertyStops route nested (i + 1) rest

end

/-- The stops of an invocation: receiver and arguments, then the variables that they declare. -/
def Stop.invocation (receiver : Option Expr) (args : List Argument) : List Stop :=
  Stop.ofOption (actual [.receiver]) receiver ++
    (forEach (fun i arg => actual [.argument i] arg.value) args ++
      outVars ((receiver.toList ++ args.map (·.value)).map (·.form.outVar?)))

/-- The stops in an arm of a switch expression. -/
def Stop.arm (i : Nat) (a : Arm) : List Stop :=
  a.pattern.stops [.arm i, .pattern] false ++
    (Stop.ofOption (fun e => [free [.arm i, .guard] e]) a.guard ++
      [once [.arm i, .body] a.value .forOperand])

/-- The stops of an expression, in the order of the walk. -/
def Expr.stops (setting : Setting) (e : Expr) : List Stop :=
  match e.form with
  | .literal | .defaultValue | .typeToken | .typeSize | .localVar _ | .param _ | .thisRef
  | .discard => []
  | .field receiver member =>
    match receiver, member.isStatic with
    | some holder, false => [.once [.receiver] holder (member.holderDemand setting.rules holder)]
    | _, _ => []
  | .arrayElement array indices =>
    .free [.operand] array :: Stop.forEach (fun i e => [.free [.index i] e]) indices
  | .call receiver _ args => Stop.invocation receiver args
  | .objectCreation _ args inits =>
    Stop.invocation none args ++ Stop.forEach (fun i init => [.free [.init i] init.value]) inits
  | .arrayCreation _ sizes elements =>
    Stop.forEach (fun i e => [.free [.size i] e]) sizes ++
      Stop.forEach (fun i e => [.once [.element i] e .forHeap]) elements
  | .delegateCreation receiver _ => Stop.ofOption (fun e => [.once [.receiver] e .forHeap]) receiver
  | .stackAlloc count elements =>
    .free [.operand] count :: Stop.forEach (fun i e => [.free [.element i] e]) elements
  | .collection elements =>
    if e.ty.isRefLike then Stop.forEach (fun i e => [.free [.element i] e]) elements
    else Stop.forEach (fun i e => [.once [.element i] e .forHeap]) elements
  | .conditional condition whenTrue whenFalse byRef =>
    [.free [.condition] condition, .once [.left] whenTrue (.forBranch byRef),
      .once [.right] whenFalse (.forBranch byRef)]
  | .coalesce left right => [.once [.left] left .forOperand, .once [.right] right .forOperand]
  | .tuple elements => Stop.forEach (fun i e => [.once [.element i] e .forOperand]) elements
  | .conversion operand kind =>
    if kind.preservesLifetime then [.once [.operand] operand id] else [.free [.operand] operand]
  | .unary operand =>
    if e.ty.isRefLike then [.once [.operand] operand .forOperand] else [.free [.operand] operand]
  | .binary left right =>
    if e.ty.isRefLike then [.once [.left] left .forOperand, .once [.right] right .forOperand]
    else [.free [.left] left, .free [.right] right]
  | .assignment left right byRef =>
    if byRef then [.free [.left] left, .free [.right] right]
    else [.free [.left] left, .part ⟨[.right], .expr right, false, .into [.left]⟩]
  | .compoundAssignment left right => [.free [.left] left, .free [.right] right]
  | .outVar var => [.site var.id]
  | .isPattern operand p => .free [.operand] operand :: p.stops [.pattern] false
  | .switch governing arms => .free [.operand] governing :: Stop.forEach Stop.arm arms

/-- The statements of a block that the whole opens. -/
def Stop.block (route : Path) (body : List Stmt) : List Stop :=
  forEach (fun i s => [nestedStmt (route ++ [.stmt i]) s]) body

/-- The initial value of a local, and the local. -/
def Stop.declaration (route : Path) (nested : Bool) (d : Declaration) : List Stop :=
  Stop.ofOption (fun e => [free route e nested]) d.init ++ [.site d.var.id]

/-- The stops in a section of a switch statement. -/
def Stop.switchSection (i : Nat) (s : Section) : List Stop :=
  forEach (fun j p => p.stops [.arm i, .label j] true) s.labels ++
    (Stop.ofOption (fun e => [free [.arm i, .guard] e true]) s.guard ++ block [.arm i] s.body)

/-- The stops in a handler of a try statement. -/
def Stop.handler (i : Nat) (c : Catch) : List Stop :=
  Stop.ofOption (fun v => [.site v.id]) c.var ++
    (Stop.ofOption (fun e => [free [.arm i, .guard] e true]) c.filter ++ block [.arm i] c.body)

/-- The stops of a statement, in the order of the walk. -/
def Stmt.stops (setting : Setting) (s : Stmt) : List Stop :=
  match s with
  | .block body | .uncheckedBlock body => Stop.block [] body
  | .declare d => Stop.declaration [.init 0] false d
  | .eval value | .yieldReturn value => [.free [.operand] value]
  | .ret value =>
    let mode := if setting.method.returnsByRef then .ref else .value
    Stop.ofOption (fun e => [.once [.operand] e (·.requiring mode setting.rules.returnScope)]) value
  | .ite condition whenTrue whenFalse =>
    [.free [.condition] condition, .stmt [.left] whenTrue] ++
      Stop.ofOption (fun other => [.stmt [.right] other]) whenFalse
  | .whileLoop condition body | .doLoop condition body =>
    [.free [.condition] condition, .stmt [.body] body]
  | .forLoop inits condition increments body =>
    Stop.forEach (fun i s => [.nestedStmt [.init i] s]) inits ++
      (Stop.ofOption (fun e => [.free [.condition] e true]) condition ++
        (Stop.forEach (fun i e => [.free [.increment i] e true]) increments ++
          [.nestedStmt [.body] body]))
  | .foreach var collection body =>
    [.free [.operand] collection, .site var.id, .nestedStmt [.body] body]
  | .using resources body =>
    Stop.forEach (fun i d => Stop.declaration [.init i] true d) resources ++
      [.nestedStmt [.body] body]
  | .switch governing sections =>
    .free [.operand] governing :: Stop.forEach Stop.switchSection sections
  | .tryCatch body catches cleanup =>
    Stop.block [.body] body ++
      (Stop.forEach Stop.handler catches ++ Stop.ofOption (Stop.block [.cleanup]) cleanup)
  | .throw value => Stop.ofOption (fun e => [.once [.operand] e .forHeap]) value
  | .break | .continue | .empty => []

/-- The stops of a node, in the order of the walk. -/
def Node.stops (setting : Setting) : Node → List Stop
  | .expr e => e.stops setting
  | .stmt s => s.stops setting

/-- The stops of a method body: its statements. -/
def Stop.body (stmts : List Stmt) : List Stop := forEach (fun i s => [stmt [.stmt i] s]) stmts

end RefLifetime
