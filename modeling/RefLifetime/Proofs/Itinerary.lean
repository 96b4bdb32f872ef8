import RefLifetime.Proofs.Stops

/-!
# The itinerary of a walk

`Body.landmarks` lists what the walk of a method body comes by, in order: every statement and
expression ahead of what is inside it, and the sites that declare locals. It is read off the syntax
and knows nothing of rules, demands or memory. `Node.inside_eq` says that the stops of a node, one
after another, make up what is inside it.
-/

namespace RefLifetime

/-- Where a node stands: its place, how many nodes lie on the way to it, itself included, and the
region around it. -/
structure Standing where
  path : Path
  level : Nat
  region : Region
  deriving DecidableEq, Repr

/-- Where a part stands that is reached by `route` from here. -/
def Standing.part (here : Standing) (route : Path) : Standing :=
  ⟨here.path ++ route, here.level + 1, here.region⟩

/-- Something that a walk comes by. -/
inductive Landmark where
  | node (node : Node) (here : Standing)
  /-- The local `id` is declared here. -/
  | site (id : Nat)

/-- The variables that a receiver and arguments declare. -/
def Argument.outVars (receiver : Option Expr) (args : List Argument) : List Local :=
  (receiver.toList ++ args.map (·.value)).filterMap (·.form.outVar?)

/-- The sites of some variables. -/
def Landmark.sites (vars : List Local) : List Landmark := vars.map (.site ·.id)

mutual

/-- The landmarks of an expression: itself, and what is inside it. -/
def Expr.landmarks (here : Standing) : Expr → List Landmark
  | ⟨form, ty, span⟩ => .node (.expr ⟨form, ty, span⟩) here :: form.inside here
termination_by structural e => e

/-- The landmarks of an argument. A variable declared in its place is not walked. -/
def Expr.argumentLandmarks (here : Standing) : Expr → List Landmark
  | ⟨form, ty, span⟩ =>
    if form.outVar?.isSome then []
    else .node (.expr ⟨form, ty, span⟩) here :: form.inside here
termination_by structural e => e

/-- The landmarks of an expression that may be absent. -/
def Expr.optionLandmarks (here : Standing) : Option Expr → List Landmark
  | none => []
  | some e => e.landmarks here
termination_by structural e => e

/-- The landmarks of a receiver that may be absent. -/
def Expr.receiverLandmarks (here : Standing) : Option Expr → List Landmark
  | none => []
  | some e => e.argumentLandmarks here
termination_by structural e => e

/-- The landmarks of the members of a list, counted from `i`. -/
def Expr.listLandmarks (here : Standing) (step : Nat → Step) (i : Nat) :
    List Expr → List Landmark
  | [] => []
  | e :: rest => e.landmarks (here.part [step i]) ++ Expr.listLandmarks here step (i + 1) rest
termination_by structural es => es

/-- The landmarks inside an expression of this form, in the order of the walk. -/
def Form.inside (here : Standing) : Form → List Landmark
  | .literal | .defaultValue | .typeToken | .typeSize | .localVar _ | .param _ | .thisRef
  | .discard => []
  | .field receiver member =>
    if member.isStatic then [] else Expr.optionLandmarks (here.part [.receiver]) receiver
  | .arrayElement array indices =>
    array.landmarks (here.part [.operand]) ++ Expr.listLandmarks here .index 0 indices
  | .call receiver _ args =>
    Expr.receiverLandmarks (here.part [.receiver]) receiver ++
      (Argument.listLandmarks here 0 args ++ Landmark.sites (Argument.outVars receiver args))
  | .objectCreation _ args inits =>
    Argument.listLandmarks here 0 args ++ Landmark.sites (Argument.outVars none args) ++
      FieldInit.listLandmarks here 0 inits
  | .arrayCreation _ sizes elements =>
    Expr.listLandmarks here .size 0 sizes ++ Expr.listLandmarks here .element 0 elements
  | .delegateCreation receiver _ => Expr.optionLandmarks (here.part [.receiver]) receiver
  | .stackAlloc count elements =>
    count.landmarks (here.part [.operand]) ++ Expr.listLandmarks here .element 0 elements
  | .collection elements | .tuple elements => Expr.listLandmarks here .element 0 elements
  | .conditional condition whenTrue whenFalse _ =>
    condition.landmarks (here.part [.condition]) ++
      (whenTrue.landmarks (here.part [.left]) ++ whenFalse.landmarks (here.part [.right]))
  | .coalesce left right | .binary left right | .assignment left right _
  | .compoundAssignment left right =>
    left.landmarks (here.part [.left]) ++ right.landmarks (here.part [.right])
  | .conversion operand _ | .unary operand => operand.landmarks (here.part [.operand])
  | .outVar var => [.site var.id]
  | .isPattern operand p =>
    operand.landmarks (here.part [.operand]) ++ p.landmarks here [.pattern]
  | .switch governing arms =>
    governing.landmarks (here.part [.operand]) ++ Arm.listLandmarks here 0 arms
termination_by structural form => form

/-- The landmarks of arguments, counted from `i`. -/
def Argument.listLandmarks (here : Standing) (i : Nat) : List Argument → List Landmark
  | [] => []
  | ⟨e, _⟩ :: rest =>
    e.argumentLandmarks (here.part [.argument i]) ++ Argument.listLandmarks here (i + 1) rest
termination_by structural args => args

/-- The landmarks of the values of fields, counted from `i`. -/
def FieldInit.listLandmarks (here : Standing) (i : Nat) : List FieldInit → List Landmark
  | [] => []
  | ⟨_, e⟩ :: rest => e.landmarks (here.part [.init i]) ++ FieldInit.listLandmarks here (i + 1) rest
termination_by structural inits => inits

/-- The landmarks of the arms of a switch expression, counted from `i`. -/
def Arm.listLandmarks (here : Standing) (i : Nat) : List Arm → List Landmark
  | [] => []
  | ⟨p, guard, e⟩ :: rest =>
    p.landmarks here [.arm i, .pattern] ++
        (Expr.optionLandmarks (here.part [.arm i, .guard]) guard ++
          e.landmarks (here.part [.arm i, .body])) ++
      Arm.listLandmarks here (i + 1) rest
termination_by structural arms => arms

/-- The landmarks of a pattern that is reached by `route` from its node: values it compares with,
and the variables it names after all that is inside. -/
def Pattern.landmarks (here : Standing) (route : Path) : Pattern → List Landmark
  | .discard | .type _ | .slice none => []
  | .constant e | .relational e => e.landmarks (here.part (route ++ [.operand]))
  | .declaration var => Landmark.sites var.toList
  | .recursive properties var =>
    Property.listLandmarks here route 0 properties ++ Landmark.sites var.toList
  | .list elements var =>
    Pattern.listLandmarks here route 0 elements ++ Landmark.sites var.toList
  | .slice (some p) | .not p => p.landmarks here (route ++ [.operand])
  | .and left right | .or left right =>
    left.landmarks here (route ++ [.left]) ++ right.landmarks here (route ++ [.right])
termination_by structural p => p

/-- The landmarks of a list of patterns, counted from `i`. -/
def Pattern.listLandmarks (here : Standing) (route : Path) (i : Nat) :
    List Pattern → List Landmark
  | [] => []
  | p :: rest =>
    p.landmarks here (route ++ [.element i]) ++ Pattern.listLandmarks here route (i + 1) rest
termination_by structural ps => ps

/-- The landmarks of the patterns of fields, counted from `i`. -/
def Property.listLandmarks (here : Standing) (route : Path) (i : Nat) :
    List Property → List Landmark
  | [] => []
  | ⟨_, p⟩ :: rest =>
    p.landmarks here (route ++ [.element i]) ++ Property.listLandmarks here route (i + 1) rest
termination_by structural ps => ps

end

/-- The landmarks of a declaration: the initial value comes before the local. -/
def Declaration.landmarks (here : Standing) (route : Path) (d : Declaration) : List Landmark :=
  Expr.optionLandmarks (here.part route) d.init ++ [.site d.var.id]

/-- The landmarks of a list of declarations, counted from `i`. -/
def Declaration.listLandmarks (here : Standing) (i : Nat) : List Declaration → List Landmark
  | [] => []
  | d :: rest => d.landmarks here [.init i] ++ Declaration.listLandmarks here (i + 1) rest

/-- The landmarks of the labels of a section, counted from `j`. -/
def Pattern.labelLandmarks (here : Standing) (i j : Nat) : List Pattern → List Landmark
  | [] => []
  | p :: rest =>
    p.landmarks here [.arm i, .label j] ++ Pattern.labelLandmarks here i (j + 1) rest

mutual

/-- The landmarks inside a statement, in the order of the walk. -/
def Stmt.inside (here : Standing) : Stmt → List Landmark
  | .block body => Stmt.listLandmarks here (fun i => [.stmt i]) 0 body
  | .uncheckedBlock body =>
    Stmt.listLandmarks { here with region := .unchecked } (fun i => [.stmt i]) 0 body
  | .declare d => d.landmarks here [.init 0]
  | .eval e | .yieldReturn e => e.landmarks (here.part [.operand])
  | .ret e | .throw e => Expr.optionLandmarks (here.part [.operand]) e
  | .ite condition whenTrue whenFalse =>
    condition.landmarks (here.part [.condition]) ++
      (.node (.stmt whenTrue) (here.part [.left]) :: whenTrue.inside (here.part [.left]) ++
        Stmt.optionLandmarks (here.part [.right]) whenFalse)
  | .whileLoop condition body | .doLoop condition body =>
    condition.landmarks (here.part [.condition]) ++
      (.node (.stmt body) (here.part [.body]) :: body.inside (here.part [.body]))
  | .forLoop inits condition increments body =>
    Stmt.listLandmarks here (fun i => [.init i]) 0 inits ++
      (Expr.optionLandmarks (here.part [.condition]) condition ++
        (Expr.listLandmarks here .increment 0 increments ++
          (.node (.stmt body) (here.part [.body]) :: body.inside (here.part [.body]))))
  | .foreach var collection body =>
    collection.landmarks (here.part [.operand]) ++
      (.site var.id :: .node (.stmt body) (here.part [.body]) :: body.inside (here.part [.body]))
  | .using resources body =>
    Declaration.listLandmarks here 0 resources ++
      (.node (.stmt body) (here.part [.body]) :: body.inside (here.part [.body]))
  | .switch governing sections =>
    governing.landmarks (here.part [.operand]) ++ Section.listLandmarks here 0 sections
  | .tryCatch body catches cleanup =>
    Stmt.listLandmarks here (fun i => [.body, .stmt i]) 0 body ++
      (Catch.listLandmarks here 0 catches ++ Stmt.cleanupLandmarks here cleanup)
  | .break | .continue | .empty => []
termination_by structural s => s

/-- The landmarks of a statement that may be absent. -/
def Stmt.optionLandmarks (here : Standing) : Option Stmt → List Landmark
  | none => []
  | some s => .node (.stmt s) here :: s.inside here
termination_by structural s => s

/-- The landmarks of a list of statements, counted from `i`. -/
def Stmt.listLandmarks (here : Standing) (route : Nat → Path) (i : Nat) :
    List Stmt → List Landmark
  | [] => []
  | s :: rest =>
    .node (.stmt s) (here.part (route i)) :: s.inside (here.part (route i)) ++
      Stmt.listLandmarks here route (i + 1) rest
termination_by structural body => body

/-- The landmarks of the last part of a try statement, which may be absent. -/
def Stmt.cleanupLandmarks (here : Standing) : Option (List Stmt) → List Landmark
  | none => []
  | some body => Stmt.listLandmarks here (fun i => [.cleanup, .stmt i]) 0 body
termination_by structural body => body

/-- The landmarks of the sections of a switch statement, counted from `i`. -/
def Section.listLandmarks (here : Standing) (i : Nat) : List Section → List Landmark
  | [] => []
  | ⟨labels, guard, body⟩ :: rest =>
    Pattern.labelLandmarks here i 0 labels ++
        (Expr.optionLandmarks (here.part [.arm i, .guard]) guard ++
          Stmt.listLandmarks here (fun j => [.arm i, .stmt j]) 0 body) ++
      Section.listLandmarks here (i + 1) rest
termination_by structural sections => sections

/-- The landmarks of the handlers of a try statement, counted from `i`. -/
def Catch.listLandmarks (here : Standing) (i : Nat) : List Catch → List Landmark
  | [] => []
  | ⟨var, filter, body⟩ :: rest =>
    Landmark.sites var.toList ++
        (Expr.optionLandmarks (here.part [.arm i, .guard]) filter ++
          Stmt.listLandmarks here (fun j => [.arm i, .stmt j]) 0 body) ++
      Catch.listLandmarks here (i + 1) rest
termination_by structural catches => catches

end

/-- The landmarks inside a node. -/
def Node.inside (here : Standing) : Node → List Landmark
  | .expr e => e.form.inside here
  | .stmt s => s.inside here

/-- The landmarks of a node: itself, and what is inside it. -/
def Node.landmarks (here : Standing) (node : Node) : List Landmark :=
  .node node here :: node.inside here

/-- The standing of a method body, on no level yet. -/
def Standing.body (method : Method) : Standing := ⟨[], 0, .ofUnsafe method.isUnsafe⟩

/-- What the walk of a method body comes by, in order. -/
def Body.landmarks (body : Body) : List Landmark :=
  Stmt.listLandmarks (.body body.method) (fun i => [.stmt i]) 0 body.stmts

/-- The region of the statements that a node consists of, as far as the node itself says. -/
def Node.opens : Node → Region
  | .stmt (.uncheckedBlock _) => .unchecked
  | _ => .checked

/-- Where the parts of a node stand that stands here. -/
def Standing.inside (here : Standing) (node : Node) : Standing :=
  { here with region := node.opens.within here.region }

/-! ### Landmarks and stops -/

/-- The landmarks of some stops of a node that stands here. -/
def Stop.landmarks (here : Standing) (stops : List Stop) : List Landmark :=
  stops.flatMap fun
    | .site id => [.site id]
    | .part p => p.node.landmarks (here.part p.route)

/-- A node that opens no unchecked region leaves the standing as it is. -/
theorem Standing.inside_of_checked (here : Standing) {node : Node} (h : node.opens = .checked) :
    here.inside node = here := by
  simp only [inside, h, Region.checked_within]

private theorem Expr.landmarks_eq (here : Standing) (e : Expr) :
    e.landmarks here = (Node.expr e).landmarks here := by
  obtain ⟨form, ty, span⟩ := e
  rfl

namespace Stop

variable (here : Standing)

@[simp] private theorem landmarks_nil : landmarks here [] = [] := rfl

@[simp] private theorem landmarks_append (l l' : List Stop) :
    landmarks here (l ++ l') = landmarks here l ++ landmarks here l' :=
  List.flatMap_append

/-- The landmarks of a part come before those of the stops behind it. -/
theorem landmarks_cons_part (p : Part) (l : List Stop) :
    landmarks here (.part p :: l) = p.node.landmarks (here.part p.route) ++ landmarks here l := by
  simp [landmarks]

/-- A site is a landmark of its own. -/
@[simp] theorem landmarks_cons_site (id : Nat) (l : List Stop) :
    landmarks here (.site id :: l) = .site id :: landmarks here l := by
  simp [landmarks]

/-- An expression has the same landmarks however it is asked for. -/
@[simp] theorem landmarks_cons_expr (route : Path) (e : Expr) (nested : Bool) (asking : Asking)
    (l : List Stop) :
    landmarks here (.part ⟨route, .expr e, nested, asking⟩ :: l) =
      e.landmarks (here.part route) ++ landmarks here l := by
  rw [landmarks_cons_part, Expr.landmarks_eq]

@[simp] private theorem landmarks_cons_stmt (route : Path) (s : Stmt) (nested : Bool)
    (asking : Asking) (l : List Stop) :
    landmarks here (.part ⟨route, .stmt s, nested, asking⟩ :: l) =
      .node (.stmt s) (here.part route) :: (s.inside (here.part route) ++ landmarks here l) := by
  rw [landmarks_cons_part]
  rfl

@[simp] private theorem landmarks_option (route : Path) (e : Option Expr) (nested : Bool)
    (asking : Asking) :
    landmarks here (ofOption (fun e => [.part ⟨route, .expr e, nested, asking⟩]) e) =
      Expr.optionLandmarks (here.part route) e := by
  cases e with
  | none => rfl
  | some e => simp [ofOption, Expr.optionLandmarks]

@[simp] private theorem landmarks_exprs (step : Nat → Step) (nested : Bool) (asking : Asking)
    (es : List Expr) (i : Nat) :
    landmarks here (forEach (fun i e => [.part ⟨[step i], .expr e, nested, asking⟩]) es i) =
      Expr.listLandmarks here step i es := by
  induction es generalizing i with
  | nil => rfl
  | cons e rest ih => simp [forEach, Expr.listLandmarks, ih]

@[simp] private theorem landmarks_actual (route : Path) (e : Expr) :
    landmarks here (actual route e) = e.argumentLandmarks (here.part route) := by
  obtain ⟨form, ty, span⟩ := e
  simp only [actual, Expr.argumentLandmarks]
  cases form.outVar? with
  | none => simp [free, Expr.landmarks]
  | some var => rfl

private theorem landmarks_outVars (es : List Expr) :
    landmarks here (outVars (es.map (·.form.outVar?))) =
      Landmark.sites (es.filterMap (·.form.outVar?)) := by
  induction es with
  | nil => rfl
  | cons e rest ih =>
    simp only [outVars, List.map_cons, List.filterMap_cons] at ih ⊢
    cases e.form.outVar? with
    | none => exact ih
    | some var =>
      simp only [Option.map_some, landmarks_cons_site, ih]
      rfl

@[simp] private theorem landmarks_designation (var : Option Local) :
    landmarks here (ofOption (fun v => [.site v.id]) var) = Landmark.sites var.toList := by
  cases var <;> rfl

private theorem landmarks_arguments (args : List Argument) (i : Nat) :
    landmarks here (forEach (fun i arg => actual [.argument i] arg.value) args i) =
      Argument.listLandmarks here i args := by
  induction args generalizing i with
  | nil => rfl
  | cons arg rest ih =>
    obtain ⟨e, passing⟩ := arg
    simp [forEach, Argument.listLandmarks, ih]

@[simp] private theorem landmarks_invocation (receiver : Option Expr) (args : List Argument) :
    landmarks here (invocation receiver args) =
      Expr.receiverLandmarks (here.part [.receiver]) receiver ++
        (Argument.listLandmarks here 0 args ++
          Landmark.sites (Argument.outVars receiver args)) := by
  rw [invocation, landmarks_append, landmarks_append, landmarks_arguments, landmarks_outVars,
    Argument.outVars]
  cases receiver with
  | none => rfl
  | some e => simp [ofOption, Expr.receiverLandmarks]

@[simp] private theorem landmarks_inits (inits : List FieldInit) (i : Nat) :
    landmarks here
        (forEach (fun i init => [.part ⟨[.init i], .expr init.value, false, .freely⟩]) inits i) =
      FieldInit.listLandmarks here i inits := by
  induction inits generalizing i with
  | nil => rfl
  | cons init rest ih =>
    obtain ⟨field, e⟩ := init
    simp [forEach, FieldInit.listLandmarks, ih]

end Stop

mutual

@[simp] private theorem Pattern.landmarks_eq (here : Standing) (route : Path) (nested : Bool) :
    (p : Pattern) → Stop.landmarks here (p.stops route nested) = p.landmarks here route
  | .discard | .type _ | .slice none => rfl
  | .constant value | .relational value => by simp [Pattern.stops, Pattern.landmarks, Stop.free]
  | .declaration var => Stop.landmarks_designation here var
  | .recursive properties var => by
    simp [Pattern.stops, Pattern.landmarks, Property.landmarks_eq here route nested properties 0]
  | .list elements var => by
    simp [Pattern.stops, Pattern.landmarks, Pattern.elements_eq here route nested elements 0]
  | .slice (some rest) => Pattern.landmarks_eq here _ nested rest
  | .not inner => Pattern.landmarks_eq here _ nested inner
  | .and left right | .or left right => by
    simp [Pattern.stops, Pattern.landmarks, Pattern.landmarks_eq here _ nested left,
      Pattern.landmarks_eq here _ nested right]
termination_by structural p => p

private theorem Pattern.elements_eq (here : Standing) (route : Path) (nested : Bool) :
    (ps : List Pattern) → (i : Nat) →
      Stop.landmarks here (Pattern.elementStops route nested i ps) =
        Pattern.listLandmarks here route i ps
  | [], _ => rfl
  | p :: rest, i => by
    simp [Pattern.elementStops, Pattern.listLandmarks, Pattern.landmarks_eq here _ nested p,
      Pattern.elements_eq here route nested rest (i + 1)]
termination_by structural ps => ps

private theorem Property.landmarks_eq (here : Standing) (route : Path) (nested : Bool) :
    (ps : List Property) → (i : Nat) →
      Stop.landmarks here (Pattern.propertyStops route nested i ps) =
        Property.listLandmarks here route i ps
  | [], _ => rfl
  | ⟨_, p⟩ :: rest, i => by
    simp [Pattern.propertyStops, Property.listLandmarks, Pattern.landmarks_eq here _ nested p,
      Property.landmarks_eq here route nested rest (i + 1)]
termination_by structural ps => ps

end

private theorem Arm.landmarks_eq (here : Standing) (arms : List Arm) (i : Nat) :
    Stop.landmarks here (Stop.forEach Stop.arm arms i) = Arm.listLandmarks here i arms := by
  induction arms generalizing i with
  | nil => rfl
  | cons a rest ih =>
    obtain ⟨p, guard, e⟩ := a
    simp [Stop.forEach, Stop.arm, Stop.free, Stop.once, Arm.listLandmarks, ih]

/-- What is inside an expression is at its stops. -/
theorem Expr.inside_eq (setting : Setting) (here : Standing) (e : Expr) :
    e.form.inside here = Stop.landmarks here (e.stops setting) := by
  obtain ⟨form, ty, span⟩ := e
  cases form with
  | literal | defaultValue | typeToken | typeSize | localVar _ | param _ | thisRef | discard
  | outVar _ => rfl
  | field receiver member =>
    cases receiver with
    | none => cases hs : member.isStatic <;> simp [Form.inside, stops, hs, optionLandmarks]
    | some holder =>
      cases hs : member.isStatic <;>
        simp [Form.inside, stops, hs, Stop.once, optionLandmarks]
  | arrayElement _ _ | call _ _ _ | arrayCreation _ _ _ | delegateCreation _ _ | stackAlloc _ _
  | tuple _ | conditional _ _ _ _ | coalesce _ _ | compoundAssignment _ _ | isPattern _ _ =>
    simp [Form.inside, stops, Stop.free, Stop.once]
  | objectCreation method args inits =>
    simp [Form.inside, stops, Stop.free, receiverLandmarks]
  | collection _ | binary _ _ | unary _ =>
    by_cases h : ty.isRefLike <;> simp [Form.inside, stops, h, Stop.free, Stop.once]
  | assignment left right byRef => cases byRef <;> simp [Form.inside, stops, Stop.free]
  | conversion operand kind =>
    by_cases h : kind.preservesLifetime <;> simp [Form.inside, stops, h, Stop.free, Stop.once]
  | switch governing arms => simp [Form.inside, stops, Stop.free, Arm.landmarks_eq]

private theorem Stmt.landmarks_eq (here : Standing) (route : Nat → Path) (nested : Bool)
    (asking : Asking) (body : List Stmt) (i : Nat) :
    Stop.landmarks here
        (Stop.forEach (fun i s => [.part ⟨route i, .stmt s, nested, asking⟩]) body i) =
      Stmt.listLandmarks here route i body := by
  induction body generalizing i with
  | nil => rfl
  | cons s rest ih => simp [Stop.forEach, Stmt.listLandmarks, ih]

private theorem Declaration.landmarks_eq (here : Standing) (route : Path) (nested : Bool)
    (d : Declaration) :
    Stop.landmarks here (Stop.declaration route nested d) = d.landmarks here route := by
  simp [Stop.declaration, Declaration.landmarks, Stop.free]

private theorem Declaration.list_eq (here : Standing) (nested : Bool) (ds : List Declaration)
    (i : Nat) :
    Stop.landmarks here (Stop.forEach (fun i d => Stop.declaration [.init i] nested d) ds i) =
      Declaration.listLandmarks here i ds := by
  induction ds generalizing i with
  | nil => rfl
  | cons d rest ih =>
    simp [Stop.forEach, Declaration.listLandmarks, Declaration.landmarks_eq, ih]

private theorem Pattern.labels_eq (here : Standing) (i : Nat) (nested : Bool) (ps : List Pattern)
    (j : Nat) :
    Stop.landmarks here (Stop.forEach (fun j p => p.stops [.arm i, .label j] nested) ps j) =
      Pattern.labelLandmarks here i j ps := by
  induction ps generalizing j with
  | nil => rfl
  | cons p rest ih => simp [Stop.forEach, Pattern.labelLandmarks, ih]

private theorem Section.landmarks_eq (here : Standing) (sections : List Section) (i : Nat) :
    Stop.landmarks here (Stop.forEach Stop.switchSection sections i) =
      Section.listLandmarks here i sections := by
  induction sections generalizing i with
  | nil => rfl
  | cons s rest ih =>
    obtain ⟨labels, guard, body⟩ := s
    simp [Stop.forEach, Stop.switchSection, Stop.block, Stop.nestedStmt, Stop.free,
      Pattern.labels_eq, Stmt.landmarks_eq, Section.listLandmarks, ih]

private theorem Catch.landmarks_eq (here : Standing) (catches : List Catch) (i : Nat) :
    Stop.landmarks here (Stop.forEach Stop.handler catches i) =
      Catch.listLandmarks here i catches := by
  induction catches generalizing i with
  | nil => rfl
  | cons c rest ih =>
    obtain ⟨var, filter, body⟩ := c
    simp [Stop.forEach, Stop.handler, Stop.block, Stop.nestedStmt, Stop.free, Stmt.landmarks_eq,
      Catch.listLandmarks, ih]

/-- What is inside a statement is at its stops. -/
theorem Stmt.inside_eq (setting : Setting) (here : Standing) (s : Stmt) :
    s.inside here = Stop.landmarks (here.inside (.stmt s)) (s.stops setting) := by
  have hc (h : (Node.stmt s).opens = .checked)
      (hs : s.inside here = Stop.landmarks here (s.stops setting)) :
      s.inside here = Stop.landmarks (here.inside (.stmt s)) (s.stops setting) := by
    rw [here.inside_of_checked h, hs]
  cases s with
  | uncheckedBlock body =>
    have hu : Region.unchecked.within here.region = .unchecked := by
      cases here.region <;> rfl
    simp [Stmt.inside, Standing.inside, Node.opens, hu, stops, Stop.block, Stop.nestedStmt,
      Stmt.landmarks_eq]
  | block _ | eval _ | yieldReturn _ | ret _ | throw _ | «break» | «continue» | empty
  | whileLoop _ _ | doLoop _ _ | forLoop _ _ _ _ | foreach _ _ _ =>
    refine hc rfl ?_
    simp [Stmt.inside, stops, Stop.block, Stop.nestedStmt, Stop.stmt, Stop.free, Stop.once,
      Stmt.landmarks_eq]
  | declare d => exact hc rfl (Declaration.landmarks_eq here _ false d).symm
  | ite condition whenTrue whenFalse =>
    refine hc rfl ?_
    cases whenFalse <;>
      simp [Stmt.inside, stops, Stop.free, Stop.stmt, Stop.ofOption, Stmt.optionLandmarks]
  | «using» resources body =>
    refine hc rfl ?_
    simp [Stmt.inside, stops, Stop.nestedStmt, Declaration.list_eq]
  | switch governing sections =>
    refine hc rfl ?_
    simp [Stmt.inside, stops, Stop.free, Section.landmarks_eq]
  | tryCatch body catches cleanup =>
    refine hc rfl ?_
    cases cleanup <;>
      simp [Stmt.inside, stops, Stop.block, Stop.nestedStmt, Stop.ofOption, Stmt.landmarks_eq,
        Catch.landmarks_eq, Stmt.cleanupLandmarks]

/-- What is inside a node is at its stops, one after another. -/
theorem Node.inside_eq (setting : Setting) (here : Standing) (node : Node) :
    node.inside here = Stop.landmarks (here.inside node) (node.stops setting) := by
  cases node with
  | expr e =>
    rw [here.inside_of_checked rfl]
    exact e.inside_eq setting here
  | stmt s => exact s.inside_eq setting here

/-- The landmarks of a body are those of its statements, one after another. -/
theorem Body.landmarks_eq (body : Body) :
    body.landmarks = Stop.landmarks (.body body.method) (Stop.body body.stmts) :=
  (Stmt.landmarks_eq (.body body.method) (fun i => [.stmt i]) false (.once id) body.stmts 0).symm

/-- The landmarks of some stops are the sites among them and the landmarks of the parts. -/
theorem Stop.mem_landmarks {here : Standing} {stops : List Stop} {landmark : Landmark} :
    landmark ∈ Stop.landmarks here stops ↔
      (∃ id, .site id ∈ stops ∧ landmark = .site id) ∨
        ∃ p, .part p ∈ stops ∧ landmark ∈ p.node.landmarks (here.part p.route) := by
  induction stops with
  | nil => simp
  | cons stop rest ih =>
    cases stop with
    | site id =>
      rw [landmarks_cons_site, List.mem_cons, ih]
      grind
    | part p =>
      rw [landmarks_cons_part, List.mem_append, ih]
      grind

/-! ### Symbols on the way -/

mutual

/-- The variables that a pattern names. -/
def Pattern.locals : Pattern → List Local
  | .discard | .type _ | .constant _ | .relational _ | .slice none => []
  | .declaration var => var.toList
  | .recursive properties var => Property.listLocals properties ++ var.toList
  | .list elements var => Pattern.listLocals elements ++ var.toList
  | .slice (some p) | .not p => p.locals
  | .and left right | .or left right => left.locals ++ right.locals
termination_by structural p => p

/-- The variables that a list of patterns names. -/
def Pattern.listLocals : List Pattern → List Local
  | [] => []
  | p :: rest => p.locals ++ Pattern.listLocals rest
termination_by structural ps => ps

/-- The variables that the patterns of fields name. -/
def Property.listLocals : List Property → List Local
  | [] => []
  | ⟨_, p⟩ :: rest => p.locals ++ Property.listLocals rest
termination_by structural ps => ps

end

/-- The locals that a node itself declares. -/
def Node.declared : Node → List Local
  | .expr ⟨.outVar var, _, _⟩ => [var]
  | .expr ⟨.call receiver _ args, _, _⟩ => Argument.outVars receiver args
  | .expr ⟨.objectCreation _ args _, _, _⟩ => Argument.outVars none args
  | .expr ⟨.isPattern _ p, _, _⟩ => p.locals
  | .expr ⟨.switch _ arms, _, _⟩ => arms.flatMap (·.pattern.locals)
  | .stmt (.declare d) => [d.var]
  | .stmt (.foreach var _ _) => [var]
  | .stmt (.using resources _) => resources.map (·.var)
  | .stmt (.switch _ sections) => sections.flatMap (·.labels.flatMap (·.locals))
  | .stmt (.tryCatch _ catches _) => catches.flatMap (·.var.toList)
  | _ => []

/-- The parameters of a method, its receiver among them. -/
def Method.signature (m : Method) : List Param := m.receiver.toList ++ m.params

/-- The parameters that a node itself refers to: the one it reads, or those of its callee. -/
def Node.params : Node → List Param
  | .expr ⟨.param p, _, _⟩ => [p]
  | .expr ⟨.call _ callee _, _, _⟩ | .expr ⟨.objectCreation callee _ _, _, _⟩ => callee.signature
  | _ => []

/-- The fields that a node itself refers to: the one it reads, or those it initialises. -/
def Node.fields : Node → List Field
  | .expr ⟨.field _ member, _, _⟩ => [member]
  | .expr ⟨.objectCreation _ _ inits, _, _⟩ => inits.map (·.field)
  | _ => []

/-- The nodes that the walk of a body comes by. -/
def Body.nodes (body : Body) : List Node :=
  body.landmarks.filterMap fun
    | .node node _ => some node
    | .site _ => none

/-- Everything that the walk of a node comes by, the node included, satisfies `P`. -/
def Node.Throughout (P : Node → Prop) (here : Standing) (node : Node) : Prop :=
  ∀ n there, .node n there ∈ node.landmarks here → P n

namespace Node.Throughout

variable {P : Node → Prop} {here : Standing} {node : Node}

/-- What holds throughout a node holds of the node. -/
theorem own (h : node.Throughout P here) : P node := h node here List.mem_cons_self

/-- What holds throughout a node holds throughout its parts. -/
theorem part (h : node.Throughout P here) (setting : Setting) {p : Part}
    (hp : .part p ∈ node.stops setting) :
    p.node.Throughout P ((here.inside node).part p.route) := by
  intro n there hn
  refine h n there (List.mem_cons_of_mem _ ?_)
  rw [node.inside_eq setting]
  exact Stop.mem_landmarks.mpr (.inr ⟨p, hp, hn⟩)

end Node.Throughout

/-- What holds of all nodes of a body holds throughout its statements. -/
theorem Body.throughout {P : Node → Prop} {body : Body} (h : ∀ n ∈ body.nodes, P n) {p : Part}
    (hp : .part p ∈ Stop.body body.stmts) :
    p.node.Throughout P ((Standing.body body.method).part p.route) := by
  intro n there hn
  refine h n (List.mem_filterMap.mpr ⟨.node n there, ?_, rfl⟩)
  rw [body.landmarks_eq]
  exact Stop.mem_landmarks.mpr (.inr ⟨p, hp, hn⟩)

end RefLifetime
