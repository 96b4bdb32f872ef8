import RefLifetime.Proofs.Invocations

/-!
# Arrays for the stack, as the syntax shows them

An array that is created in the place of an argument may be allocated on the stack if its parameter
collects arguments and the callee promises not to leak them. `Body.stackArrays` lists these arrays
from the syntax alone: it goes through what is walked once and in order, and a call or an object
creation comes after the receiver and the arguments that it is given. Apart from invocations, a node
has no arrays besides those at its stops (`Expr.stackArrays_eq`, `Stmt.stackArrays_eq`).
-/

namespace RefLifetime

/-- The array that the expression creates for a parameter, if it may be allocated on the stack. -/
def Expr.stackArray? (param : Option Param) (e : Expr) : Option Nat :=
  match param, e.form with
  | some p, .arrayCreation id _ _ => if p.isParams && p.nonEscaping then some id else none
  | _, _ => none

/-- A receiver and arguments, each with the parameter that it is bound to. -/
def Method.bindings (callee : Method) (receiver : Option Expr) (args : List Argument) :
    List (Option Param × Expr) :=
  receiver.toList.map (fun e => (callee.receiver, e)) ++
    args.zipIdx.map fun arg => (callee.params[arg.2]?, arg.1.value)

/-- The arrays for the stack among a receiver and arguments themselves. -/
def Method.stackArrays (callee : Method) (receiver : Option Expr) (args : List Argument) :
    List Nat :=
  (callee.bindings receiver args).filterMap fun binding => binding.2.stackArray? binding.1

mutual

/-- The arrays for the stack in an expression, in the order of the walk. -/
def Expr.stackArrays : Expr → List Nat
  | ⟨form, _, _⟩ => form.stackArrays
termination_by structural e => e

/-- The arrays for the stack in an expression that may be absent. -/
def Expr.optionStackArrays : Option Expr → List Nat
  | none => []
  | some e => e.stackArrays
termination_by structural e => e

/-- The arrays for the stack in all expressions of a list. -/
def Expr.listStackArrays : List Expr → List Nat
  | [] => []
  | e :: rest => e.stackArrays ++ Expr.listStackArrays rest
termination_by structural es => es

/-- The arrays for the stack in an expression of this form. The receiver of a static field is not
walked. -/
def Form.stackArrays : Form → List Nat
  | .literal | .defaultValue | .typeToken | .typeSize | .localVar _ | .param _ | .thisRef
  | .discard | .outVar _ => []
  | .field receiver member => if member.isStatic then [] else Expr.optionStackArrays receiver
  | .arrayElement first rest | .stackAlloc first rest =>
    first.stackArrays ++ Expr.listStackArrays rest
  | .call receiver callee args =>
    Expr.optionStackArrays receiver ++ Argument.listStackArrays args ++
      callee.stackArrays receiver args
  | .objectCreation constructor args inits =>
    Argument.listStackArrays args ++ constructor.stackArrays none args ++
      FieldInit.listStackArrays inits
  | .arrayCreation _ sizes elements =>
    Expr.listStackArrays sizes ++ Expr.listStackArrays elements
  | .delegateCreation receiver _ => Expr.optionStackArrays receiver
  | .collection elements | .tuple elements => Expr.listStackArrays elements
  | .conditional condition whenTrue whenFalse _ =>
    condition.stackArrays ++ (whenTrue.stackArrays ++ whenFalse.stackArrays)
  | .coalesce left right | .binary left right | .assignment left right _
  | .compoundAssignment left right => left.stackArrays ++ right.stackArrays
  | .conversion operand _ | .unary operand => operand.stackArrays
  | .isPattern operand p => operand.stackArrays ++ p.stackArrays
  | .switch governing arms => governing.stackArrays ++ Arm.listStackArrays arms
termination_by structural form => form

/-- The arrays for the stack inside the arguments of an invocation. -/
def Argument.listStackArrays : List Argument → List Nat
  | [] => []
  | ⟨e, _⟩ :: rest => e.stackArrays ++ Argument.listStackArrays rest
termination_by structural args => args

/-- The arrays for the stack in the initial values of fields. -/
def FieldInit.listStackArrays : List FieldInit → List Nat
  | [] => []
  | ⟨_, e⟩ :: rest => e.stackArrays ++ FieldInit.listStackArrays rest
termination_by structural inits => inits

/-- The arrays for the stack in the arms of a switch expression: pattern, guard and value of each.
-/
def Arm.listStackArrays : List Arm → List Nat
  | [] => []
  | ⟨p, guard, e⟩ :: rest =>
    p.stackArrays ++ (Expr.optionStackArrays guard ++ e.stackArrays) ++ Arm.listStackArrays rest
termination_by structural arms => arms

/-- The arrays for the stack in the values that a pattern compares with. -/
def Pattern.stackArrays : Pattern → List Nat
  | .discard | .type _ | .declaration _ | .slice none => []
  | .constant e | .relational e => e.stackArrays
  | .recursive properties _ => Property.listStackArrays properties
  | .list elements _ => Pattern.listStackArrays elements
  | .slice (some p) | .not p => p.stackArrays
  | .and left right | .or left right => left.stackArrays ++ right.stackArrays
termination_by structural p => p

/-- The arrays for the stack in all patterns of a list. -/
def Pattern.listStackArrays : List Pattern → List Nat
  | [] => []
  | p :: rest => p.stackArrays ++ Pattern.listStackArrays rest
termination_by structural ps => ps

/-- The arrays for the stack in the patterns for some fields. -/
def Property.listStackArrays : List Property → List Nat
  | [] => []
  | ⟨_, p⟩ :: rest => p.stackArrays ++ Property.listStackArrays rest
termination_by structural ps => ps

end

mutual

/-- The arrays for the stack in a statement, in the order of the walk. -/
def Stmt.stackArrays : Stmt → List Nat
  | .block body | .uncheckedBlock body => Stmt.listStackArrays body
  | .declare d => Expr.optionStackArrays d.init
  | .eval e | .yieldReturn e => e.stackArrays
  | .ret e | .throw e => Expr.optionStackArrays e
  | .ite condition whenTrue whenFalse =>
    condition.stackArrays ++ (whenTrue.stackArrays ++ Stmt.optionStackArrays whenFalse)
  | .whileLoop condition body | .doLoop condition body =>
    condition.stackArrays ++ body.stackArrays
  | .forLoop inits condition increments body =>
    Stmt.listStackArrays inits ++ (Expr.optionStackArrays condition ++
      (Expr.listStackArrays increments ++ body.stackArrays))
  | .foreach _ collection body => collection.stackArrays ++ body.stackArrays
  | .using resources body =>
    resources.flatMap (fun d => Expr.optionStackArrays d.init) ++ body.stackArrays
  | .switch governing sections => governing.stackArrays ++ Section.listStackArrays sections
  | .tryCatch body catches cleanup =>
    Stmt.listStackArrays body ++
      (Catch.listStackArrays catches ++ Stmt.cleanupStackArrays cleanup)
  | .break | .continue | .empty => []
termination_by structural s => s

/-- The arrays for the stack in a statement that may be absent. -/
def Stmt.optionStackArrays : Option Stmt → List Nat
  | none => []
  | some s => s.stackArrays
termination_by structural s => s

/-- The arrays for the stack in all statements of a list. -/
def Stmt.listStackArrays : List Stmt → List Nat
  | [] => []
  | s :: rest => s.stackArrays ++ Stmt.listStackArrays rest
termination_by structural body => body

/-- The arrays for the stack in the last part of a try statement, which may be absent. -/
def Stmt.cleanupStackArrays : Option (List Stmt) → List Nat
  | none => []
  | some body => Stmt.listStackArrays body
termination_by structural body => body

/-- The arrays for the stack in the sections of a switch statement: labels, guard and body of each.
-/
def Section.listStackArrays : List Section → List Nat
  | [] => []
  | ⟨labels, guard, body⟩ :: rest =>
    Pattern.listStackArrays labels ++
        (Expr.optionStackArrays guard ++ Stmt.listStackArrays body) ++
      Section.listStackArrays rest
termination_by structural sections => sections

/-- The arrays for the stack in the handlers of a try statement: filter and body of each. -/
def Catch.listStackArrays : List Catch → List Nat
  | [] => []
  | ⟨_, filter, body⟩ :: rest =>
    Expr.optionStackArrays filter ++ Stmt.listStackArrays body ++ Catch.listStackArrays rest
termination_by structural catches => catches

end

/-- The arrays for the stack in a node. -/
def Node.stackArrays : Node → List Nat
  | .expr e => e.stackArrays
  | .stmt s => s.stackArrays

/-- The arrays for the stack in a method body, in the order of the walk. -/
def Body.stackArrays (body : Body) : List Nat := Stmt.listStackArrays body.stmts

/-! ### Stops -/

/-- The arrays for the stack in the parts among some stops. -/
def Stop.stackArrays (stops : List Stop) : List Nat :=
  stops.flatMap fun
    | .site _ => []
    | .part p => p.node.stackArrays

namespace Stop

@[simp] private theorem stackArrays_nil : stackArrays [] = [] := rfl

@[simp] private theorem stackArrays_append (l l' : List Stop) :
    stackArrays (l ++ l') = stackArrays l ++ stackArrays l' := List.flatMap_append

/-- There is no array at a site. -/
@[simp] theorem stackArrays_cons_site (id : Nat) (l : List Stop) :
    stackArrays (.site id :: l) = stackArrays l := by
  simp [stackArrays]

/-- The arrays in a part come before those in the stops behind it. -/
theorem stackArrays_cons_part (p : Part) (l : List Stop) :
    stackArrays (.part p :: l) = p.node.stackArrays ++ stackArrays l := by
  simp [stackArrays]

@[simp] private theorem stackArrays_cons_expr (route : Path) (e : Expr) (nested : Bool)
    (asking : Asking) (l : List Stop) :
    stackArrays (.part ⟨route, .expr e, nested, asking⟩ :: l) = e.stackArrays ++ stackArrays l :=
  stackArrays_cons_part _ l

@[simp] private theorem stackArrays_cons_stmt (route : Path) (s : Stmt) (nested : Bool)
    (asking : Asking) (l : List Stop) :
    stackArrays (.part ⟨route, .stmt s, nested, asking⟩ :: l) = s.stackArrays ++ stackArrays l :=
  stackArrays_cons_part _ l

@[simp] private theorem stackArrays_option (route : Path) (nested : Bool) (asking : Asking)
    (e : Option Expr) :
    stackArrays (ofOption (fun e => [.part ⟨route, .expr e, nested, asking⟩]) e) =
      Expr.optionStackArrays e := by
  cases e with
  | none => rfl
  | some e => simp [ofOption, Expr.optionStackArrays]

@[simp] private theorem stackArrays_exprs (step : Nat → Step) (nested : Bool) (asking : Asking)
    (es : List Expr) (i : Nat) :
    stackArrays (forEach (fun i e => [.part ⟨[step i], .expr e, nested, asking⟩]) es i) =
      Expr.listStackArrays es := by
  induction es generalizing i with
  | nil => rfl
  | cons e rest ih => simp [forEach, Expr.listStackArrays, ih]

@[simp] private theorem stackArrays_stmts (route : Nat → Path) (nested : Bool) (asking : Asking)
    (body : List Stmt) (i : Nat) :
    stackArrays (forEach (fun i s => [.part ⟨route i, .stmt s, nested, asking⟩]) body i) =
      Stmt.listStackArrays body := by
  induction body generalizing i with
  | nil => rfl
  | cons s rest ih => simp [forEach, Stmt.listStackArrays, ih]

/-- A variable that is declared in argument position is no part, and it holds no array. -/
theorem stackArrays_actual (route : Path) (e : Expr) :
    stackArrays (actual route e) = e.stackArrays := by
  obtain ⟨form, ty, span⟩ := e
  cases form with
  | outVar var => rfl
  | _ => simp [actual, Form.outVar?, free]

private theorem stackArrays_actuals (receiver : Option Expr) (args : List Argument) :
    stackArrays (actuals receiver args) =
      Expr.optionStackArrays receiver ++ Argument.listStackArrays args := by
  have hargs (i : Nat) :
      stackArrays (forEach (fun i arg => actual [.argument i] arg.value) args i) =
        Argument.listStackArrays args := by
    induction args generalizing i with
    | nil => rfl
    | cons arg rest ih =>
      obtain ⟨e, passing⟩ := arg
      rw [forEach, stackArrays_append, stackArrays_actual, ih]
      rfl
  rw [actuals, stackArrays_append, hargs]
  cases receiver with
  | none => rfl
  | some e => rw [ofOption, stackArrays_actual, Expr.optionStackArrays]

private theorem stackArrays_inits (inits : List FieldInit) :
    stackArrays (Stop.inits inits) = FieldInit.listStackArrays inits := by
  have hinits (i : Nat) :
      stackArrays (forEach (fun i init => [free [.init i] init.value]) inits i) =
        FieldInit.listStackArrays inits := by
    induction inits generalizing i with
    | nil => rfl
    | cons init rest ih =>
      obtain ⟨member, e⟩ := init
      simp [forEach, free, FieldInit.listStackArrays, ← ih (i + 1)]
  exact hinits 0

@[simp] private theorem stackArrays_designation (var : Option Local) :
    stackArrays (ofOption (fun v => [.site v.id]) var) = [] := by
  cases var <;> rfl

@[simp] private theorem stackArrays_declaration (route : Path) (nested : Bool) (d : Declaration) :
    stackArrays (declaration route nested d) = Expr.optionStackArrays d.init := by
  simp [declaration, free]

end Stop

mutual

@[simp] private theorem Pattern.stackArrays_eq (route : Path) (nested : Bool) :
    (p : Pattern) → Stop.stackArrays (p.stops route nested) = p.stackArrays
  | .discard | .type _ | .slice none => rfl
  | .constant value | .relational value => by simp [Pattern.stops, Pattern.stackArrays, Stop.free]
  | .declaration var => Stop.stackArrays_designation var
  | .recursive properties var => by
    simp [Pattern.stops, Pattern.stackArrays, Property.stackArrays_eq route nested properties 0]
  | .list elements var => by
    simp [Pattern.stops, Pattern.stackArrays, Pattern.elementArrays_eq route nested elements 0]
  | .slice (some rest) => Pattern.stackArrays_eq _ nested rest
  | .not inner => Pattern.stackArrays_eq _ nested inner
  | .and left right | .or left right => by
    simp [Pattern.stops, Pattern.stackArrays, Pattern.stackArrays_eq _ nested left,
      Pattern.stackArrays_eq _ nested right]
termination_by structural p => p

private theorem Pattern.elementArrays_eq (route : Path) (nested : Bool) :
    (ps : List Pattern) → (i : Nat) →
      Stop.stackArrays (Pattern.elementStops route nested i ps) = Pattern.listStackArrays ps
  | [], _ => rfl
  | p :: rest, i => by
    simp [Pattern.elementStops, Pattern.listStackArrays, Pattern.stackArrays_eq _ nested p,
      Pattern.elementArrays_eq route nested rest (i + 1)]
termination_by structural ps => ps

private theorem Property.stackArrays_eq (route : Path) (nested : Bool) :
    (ps : List Property) → (i : Nat) →
      Stop.stackArrays (Pattern.propertyStops route nested i ps) = Property.listStackArrays ps
  | [], _ => rfl
  | ⟨_, p⟩ :: rest, i => by
    simp [Pattern.propertyStops, Property.listStackArrays, Pattern.stackArrays_eq _ nested p,
      Property.stackArrays_eq route nested rest (i + 1)]
termination_by structural ps => ps

end

private theorem Pattern.labelArrays_eq (route : Nat → Path) (nested : Bool) (ps : List Pattern)
    (j : Nat) :
    Stop.stackArrays (Stop.forEach (fun j p => p.stops (route j) nested) ps j) =
      Pattern.listStackArrays ps := by
  induction ps generalizing j with
  | nil => rfl
  | cons p rest ih => simp [Stop.forEach, Pattern.listStackArrays, ih]

private theorem Arm.stackArrays_eq (arms : List Arm) (i : Nat) :
    Stop.stackArrays (Stop.forEach Stop.arm arms i) = Arm.listStackArrays arms := by
  induction arms generalizing i with
  | nil => rfl
  | cons a rest ih =>
    obtain ⟨p, guard, e⟩ := a
    simp [Stop.forEach, Stop.arm, Stop.free, Stop.once, Arm.listStackArrays, ih]

private theorem Section.stackArrays_eq (sections : List Section) (i : Nat) :
    Stop.stackArrays (Stop.forEach Stop.switchSection sections i) =
      Section.listStackArrays sections := by
  induction sections generalizing i with
  | nil => rfl
  | cons s rest ih =>
    obtain ⟨labels, guard, body⟩ := s
    simp [Stop.forEach, Stop.switchSection, Stop.block, Stop.nestedStmt, Stop.free,
      Pattern.labelArrays_eq, Section.listStackArrays, ih]

private theorem Catch.stackArrays_eq (catches : List Catch) (i : Nat) :
    Stop.stackArrays (Stop.forEach Stop.handler catches i) = Catch.listStackArrays catches := by
  induction catches generalizing i with
  | nil => rfl
  | cons c rest ih =>
    obtain ⟨var, filter, body⟩ := c
    simp [Stop.forEach, Stop.handler, Stop.block, Stop.nestedStmt, Stop.free,
      Catch.listStackArrays, ih]

private theorem Declaration.stackArrays_eq (ds : List Declaration) (i : Nat) :
    Stop.stackArrays (Stop.forEach (fun i d => Stop.declaration [.init i] true d) ds i) =
      ds.flatMap fun d => Expr.optionStackArrays d.init := by
  induction ds generalizing i with
  | nil => rfl
  | cons d rest ih => simp [Stop.forEach, ih]

/-- An expression that is no invocation has no arrays besides those at its stops. -/
theorem Expr.stackArrays_eq (setting : Setting) {e : Expr}
    (hi : ∀ receiver callee args inits, ¬ e.form.Invokes receiver callee args inits) :
    e.stackArrays = Stop.stackArrays (e.stops setting) := by
  obtain ⟨form, ty, span⟩ := e
  cases form with
  | call _ _ _ => exact absurd .call (hi _ _ _ _)
  | objectCreation _ _ _ => exact absurd .creation (hi _ _ _ _)
  | literal | defaultValue | typeToken | typeSize | localVar _ | param _ | thisRef | discard
  | outVar _ => rfl
  | field receiver member =>
    cases receiver with
    | none =>
      cases hs : member.isStatic <;>
        simp [Expr.stackArrays, Form.stackArrays, stops, hs, optionStackArrays]
    | some holder =>
      cases hs : member.isStatic <;>
        simp [Expr.stackArrays, Form.stackArrays, stops, hs, Stop.once, optionStackArrays]
  | arrayElement _ _ | arrayCreation _ _ _ | delegateCreation _ _ | stackAlloc _ _
  | tuple _ | conditional _ _ _ _ | coalesce _ _ | compoundAssignment _ _ | isPattern _ _ =>
    simp [Expr.stackArrays, Form.stackArrays, stops, Stop.free, Stop.once]
  | collection _ | binary _ _ | unary _ =>
    by_cases h : ty.isRefLike <;>
      simp [Expr.stackArrays, Form.stackArrays, stops, h, Stop.free, Stop.once]
  | assignment left right byRef =>
    cases byRef <;> simp [Expr.stackArrays, Form.stackArrays, stops, Stop.free]
  | conversion operand kind =>
    by_cases h : kind.preservesLifetime <;>
      simp [Expr.stackArrays, Form.stackArrays, stops, h, Stop.free, Stop.once]
  | switch governing arms =>
    simp [Expr.stackArrays, Form.stackArrays, stops, Stop.free, Arm.stackArrays_eq]

/-- An invocation comes after its receiver and its arguments, and before the values of fields. -/
theorem Form.Invokes.stackArrays_eq {e : Expr} {receiver : Option Expr} {callee : Method}
    {args : List Argument} {inits : List FieldInit}
    (h : e.form.Invokes receiver callee args inits) :
    e.stackArrays = Stop.stackArrays (Stop.actuals receiver args) ++
      callee.stackArrays receiver args ++ Stop.stackArrays (Stop.inits inits) := by
  obtain ⟨form, ty, span⟩ := e
  rw [Stop.stackArrays_actuals, Stop.stackArrays_inits]
  cases h with
  | call => simp [Expr.stackArrays, Form.stackArrays, FieldInit.listStackArrays]
  | creation => simp [Expr.stackArrays, Form.stackArrays, Expr.optionStackArrays]

/-- The arrays in a statement are those at its stops. -/
theorem Stmt.stackArrays_eq (setting : Setting) (s : Stmt) :
    s.stackArrays = Stop.stackArrays (s.stops setting) := by
  cases s with
  | block _ | uncheckedBlock _ | declare _ | eval _ | yieldReturn _ | ret _ | throw _ | «break»
  | «continue» | empty | whileLoop _ _ | doLoop _ _ | forLoop _ _ _ _ | foreach _ _ _ =>
    simp [Stmt.stackArrays, stops, Stop.block, Stop.nestedStmt, Stop.stmt, Stop.free, Stop.once]
  | ite condition whenTrue whenFalse =>
    cases whenFalse <;>
      simp [Stmt.stackArrays, stops, Stop.free, Stop.stmt, Stop.ofOption, optionStackArrays]
  | «using» resources body =>
    simp [Stmt.stackArrays, stops, Stop.nestedStmt, Declaration.stackArrays_eq]
  | switch governing sections =>
    simp [Stmt.stackArrays, stops, Stop.free, Section.stackArrays_eq]
  | tryCatch body catches cleanup =>
    cases cleanup <;>
      simp [Stmt.stackArrays, stops, Stop.block, Stop.nestedStmt, Stop.ofOption,
        Catch.stackArrays_eq, cleanupStackArrays]

/-- The arrays in a body are those at the stops of its walk. -/
theorem Body.stackArrays_eq (body : Body) :
    body.stackArrays = Stop.stackArrays (Stop.body body.stmts) :=
  (Stop.stackArrays_stmts (fun i => [.stmt i]) false (.once id) body.stmts 0).symm

end RefLifetime
