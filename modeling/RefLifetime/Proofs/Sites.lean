import RefLifetime.Proofs.Stops

/-!
# Declaring sites

`Body.sites` lists the locals that a method body declares, once per declaring site, wherever it
stands. The walk meets each site at most once per pass: `Node.ids` lists the sites that it comes by
within a number of levels, and `Node.count_ids_le` bounds them by the sites in the syntax.
-/

namespace RefLifetime

/-- The site of a local that may be absent. -/
def Local.optionSites (var : Option Local) : List Nat := var.toList.map (·.id)

mutual

/-- The locals declared in an expression. -/
def Expr.sites : Expr → List Nat
  | ⟨form, _, _⟩ => form.sites
termination_by structural e => e

/-- The locals declared in an expression that may be absent. -/
def Expr.optionSites : Option Expr → List Nat
  | none => []
  | some e => e.sites
termination_by structural e => e

/-- The locals declared in a list of expressions. -/
def Expr.listSites : List Expr → List Nat
  | [] => []
  | e :: rest => e.sites ++ Expr.listSites rest
termination_by structural es => es

/-- The locals declared in a form. -/
def Form.sites : Form → List Nat
  | .literal | .defaultValue | .typeToken | .typeSize | .localVar _ | .param _ | .thisRef
  | .discard => []
  | .field receiver _ => Expr.optionSites receiver
  | .arrayElement array indices => array.sites ++ Expr.listSites indices
  | .call receiver _ args => Expr.optionSites receiver ++ Argument.listSites args
  | .objectCreation _ args inits => Argument.listSites args ++ FieldInit.listSites inits
  | .arrayCreation _ sizes elements => Expr.listSites sizes ++ Expr.listSites elements
  | .delegateCreation receiver _ => Expr.optionSites receiver
  | .stackAlloc count elements => count.sites ++ Expr.listSites elements
  | .collection elements | .tuple elements => Expr.listSites elements
  | .conditional condition whenTrue whenFalse _ =>
    condition.sites ++ (whenTrue.sites ++ whenFalse.sites)
  | .coalesce left right | .binary left right | .assignment left right _
  | .compoundAssignment left right => left.sites ++ right.sites
  | .conversion operand _ | .unary operand => operand.sites
  | .outVar var => [var.id]
  | .isPattern operand p => operand.sites ++ p.sites
  | .switch governing arms => governing.sites ++ Arm.listSites arms
termination_by structural form => form

/-- The locals declared in arguments. -/
def Argument.listSites : List Argument → List Nat
  | [] => []
  | ⟨e, _⟩ :: rest => e.sites ++ Argument.listSites rest
termination_by structural args => args

/-- The locals declared in the values of fields. -/
def FieldInit.listSites : List FieldInit → List Nat
  | [] => []
  | ⟨_, e⟩ :: rest => e.sites ++ FieldInit.listSites rest
termination_by structural inits => inits

/-- The locals declared in the arms of a switch expression. -/
def Arm.listSites : List Arm → List Nat
  | [] => []
  | ⟨p, guard, e⟩ :: rest => p.sites ++ (Expr.optionSites guard ++ e.sites) ++ Arm.listSites rest
termination_by structural arms => arms

/-- The locals declared in a pattern. -/
def Pattern.sites : Pattern → List Nat
  | .discard | .type _ | .slice none => []
  | .constant e | .relational e => e.sites
  | .declaration var => Local.optionSites var
  | .recursive properties var => Property.listSites properties ++ Local.optionSites var
  | .list elements var => Pattern.listSites elements ++ Local.optionSites var
  | .slice (some p) | .not p => p.sites
  | .and left right | .or left right => left.sites ++ right.sites
termination_by structural p => p

/-- The locals declared in a list of patterns. -/
def Pattern.listSites : List Pattern → List Nat
  | [] => []
  | p :: rest => p.sites ++ Pattern.listSites rest
termination_by structural ps => ps

/-- The locals declared in the patterns of fields. -/
def Property.listSites : List Property → List Nat
  | [] => []
  | ⟨_, p⟩ :: rest => p.sites ++ Property.listSites rest
termination_by structural ps => ps

end

/-- The locals declared by a declaration: in its initial value, and its own. -/
def Declaration.sites (d : Declaration) : List Nat := Expr.optionSites d.init ++ [d.var.id]

mutual

/-- The locals declared in a statement. -/
def Stmt.sites : Stmt → List Nat
  | .block body | .uncheckedBlock body => Stmt.listSites body
  | .declare d => d.sites
  | .eval e | .yieldReturn e => e.sites
  | .ret e | .throw e => Expr.optionSites e
  | .ite condition whenTrue none => condition.sites ++ whenTrue.sites
  | .ite condition whenTrue (some other) => condition.sites ++ (whenTrue.sites ++ other.sites)
  | .whileLoop condition body | .doLoop condition body => condition.sites ++ body.sites
  | .forLoop inits condition increments body =>
    Stmt.listSites inits ++
      (Expr.optionSites condition ++ (Expr.listSites increments ++ body.sites))
  | .foreach var collection body => collection.sites ++ ([var.id] ++ body.sites)
  | .using resources body => resources.flatMap (·.sites) ++ body.sites
  | .switch governing sections => governing.sites ++ Section.listSites sections
  | .tryCatch body catches none => Stmt.listSites body ++ Catch.listSites catches
  | .tryCatch body catches (some cleanup) =>
    Stmt.listSites body ++ (Catch.listSites catches ++ Stmt.listSites cleanup)
  | .break | .continue | .empty => []
termination_by structural s => s

/-- The locals declared in a block. -/
def Stmt.listSites : List Stmt → List Nat
  | [] => []
  | s :: rest => s.sites ++ Stmt.listSites rest
termination_by structural body => body

/-- The locals declared in the sections of a switch statement. -/
def Section.listSites : List Section → List Nat
  | [] => []
  | ⟨labels, guard, body⟩ :: rest =>
    Pattern.listSites labels ++ (Expr.optionSites guard ++ Stmt.listSites body) ++
      Section.listSites rest
termination_by structural sections => sections

/-- The locals declared in the handlers of a try statement. -/
def Catch.listSites : List Catch → List Nat
  | [] => []
  | ⟨var, filter, body⟩ :: rest =>
    Local.optionSites var ++ (Expr.optionSites filter ++ Stmt.listSites body) ++
      Catch.listSites rest
termination_by structural catches => catches

end

/-- The locals declared in a node. -/
def Node.sites : Node → List Nat
  | .expr e => e.sites
  | .stmt s => s.sites

/-- The locals declared in a method body, once per declaring site. -/
def Body.sites (body : Body) : List Nat := Stmt.listSites body.stmts

/-! ### Sites that the walk comes by -/

/-- The locals declared at some stops, given those declared inside their parts. -/
def Stop.ids (inside : Node → List Nat) (stops : List Stop) : List Nat :=
  stops.flatMap fun
    | .site id => [id]
    | .part p => inside p.node

/-- The locals declared at a node and inside it, within a number of levels. -/
def Node.ids (setting : Setting) : Nat → Node → List Nat
  | 0, _ => []
  | levels + 1, node => Stop.ids (Node.ids setting levels) (node.stops setting)

/-- How often the local `id` is declared at some stops. -/
private def times (inside : Node → List Nat) (id : Nat) (stops : List Stop) : Nat :=
  (Stop.ids inside stops).count id

section Bound

variable {inside : Node → List Nat} {id : Nat}

private theorem times_nil : times inside id [] = 0 := rfl

private theorem times_site (other : Nat) : times inside id [.site other] = [other].count id := rfl

private theorem times_append (l l' : List Stop) :
    times inside id (l ++ l') = times inside id l + times inside id l' := by
  simp [times, Stop.ids]

private theorem times_cons (s : Stop) (l : List Stop) :
    times inside id (s :: l) = times inside id [s] + times inside id l :=
  times_append [s] l

private theorem times_cons_le {s : Stop} {l : List Stop} {m n : Nat}
    (hs : times inside id [s] ≤ m) (hl : times inside id l ≤ n) :
    times inside id (s :: l) ≤ m + n := by
  rw [times_cons]
  exact Nat.add_le_add hs hl

private theorem times_part (h : ∀ node, (inside node).count id ≤ node.sites.count id) (p : Part) :
    times inside id [.part p] ≤ p.node.sites.count id := by
  simpa [times, Stop.ids] using h p.node

/-- The members of a list declare no more than the list, if each declares no more than `sites`. -/
private theorem times_list {α : Type} (sites : α → List Nat) {listSites : List α → List Nat}
    (hl : ∀ a rest, listSites (a :: rest) = sites a ++ listSites rest) {f : Nat → α → List Stop}
    (h : ∀ i a, times inside id (f i a) ≤ (sites a).count id) (items : List α) (start : Nat) :
    times inside id (Stop.forEach f items start) ≤ (listSites items).count id := by
  induction items generalizing start with
  | nil => exact Nat.zero_le _
  | cons item rest ih =>
    rw [Stop.forEach, times_append, hl, List.count_append]
    exact Nat.add_le_add (h start item) (ih (start + 1))

private theorem times_designation (var : Option Local) :
    times inside id (Stop.ofOption (fun v => [.site v.id]) var) =
      (Local.optionSites var).count id := by
  cases var <;> rfl

private theorem times_option (h : ∀ node, (inside node).count id ≤ node.sites.count id)
    (f : Expr → Part) (hf : ∀ e, (f e).node = .expr e) (e : Option Expr) :
    times inside id (Stop.ofOption (fun e => [.part (f e)]) e) ≤ (Expr.optionSites e).count id := by
  cases e with
  | none => exact Nat.le_refl 0
  | some e =>
    have := times_part h (f e)
    rwa [hf] at this

private theorem times_exprs (h : ∀ node, (inside node).count id ≤ node.sites.count id)
    (f : Nat → Expr → Part) (hf : ∀ i e, (f i e).node = .expr e) (es : List Expr) (start : Nat) :
    times inside id (Stop.forEach (fun i e => [.part (f i e)]) es start) ≤
      (Expr.listSites es).count id := by
  refine times_list Expr.sites (fun _ _ => rfl) (fun i e => ?_) es start
  have := times_part h (f i e)
  rwa [hf] at this

mutual

private theorem times_pattern (h : ∀ node, (inside node).count id ≤ node.sites.count id)
    (route : Path) (nested : Bool) :
    (p : Pattern) → times inside id (p.stops route nested) ≤ p.sites.count id
  | .discard | .type _ | .slice none => Nat.le_refl 0
  | .constant value | .relational value => times_part h ⟨_, .expr value, nested, .freely⟩
  | .declaration var => Nat.le_of_eq (times_designation var)
  | .recursive properties var => by
    have h₁ := times_properties h route nested properties 0
    have h₂ : times inside id _ = _ := times_designation var
    rw [Pattern.stops, times_append, Pattern.sites, List.count_append]
    omega
  | .list elements var => by
    have h₁ := times_elements h route nested elements 0
    have h₂ : times inside id _ = _ := times_designation var
    rw [Pattern.stops, times_append, Pattern.sites, List.count_append]
    omega
  | .slice (some p) => times_pattern h _ nested p
  | .not p => times_pattern h _ nested p
  | .and left right | .or left right => by
    have h₁ := times_pattern h (route ++ [Step.left]) nested left
    have h₂ := times_pattern h (route ++ [Step.right]) nested right
    rw [Pattern.stops, times_append, Pattern.sites, List.count_append]
    omega
termination_by structural p => p

private theorem times_elements (h : ∀ node, (inside node).count id ≤ node.sites.count id)
    (route : Path) (nested : Bool) : (ps : List Pattern) → (i : Nat) →
      times inside id (Pattern.elementStops route nested i ps) ≤ (Pattern.listSites ps).count id
  | [], _ => Nat.le_refl 0
  | p :: rest, i => by
    have h₁ := times_pattern h (route ++ [.element i]) nested p
    have h₂ := times_elements h route nested rest (i + 1)
    rw [Pattern.elementStops, times_append, Pattern.listSites, List.count_append]
    omega
termination_by structural ps => ps

private theorem times_properties (h : ∀ node, (inside node).count id ≤ node.sites.count id)
    (route : Path) (nested : Bool) : (ps : List Property) → (i : Nat) →
      times inside id (Pattern.propertyStops route nested i ps) ≤ (Property.listSites ps).count id
  | [], _ => Nat.le_refl 0
  | ⟨_, p⟩ :: rest, i => by
    have h₁ := times_pattern h (route ++ [.element i]) nested p
    have h₂ := times_properties h route nested rest (i + 1)
    rw [Pattern.propertyStops, times_append, Property.listSites, List.count_append]
    omega
termination_by structural ps => ps

end

private theorem times_outVars (vars : List (Option Local)) :
    times inside id (Stop.outVars vars) = (vars.flatMap Local.optionSites).count id := by
  induction vars with
  | nil => rfl
  | cons v rest ih =>
    cases v with
    | none => simpa [Stop.outVars, Local.optionSites] using ih
    | some var =>
      change times inside id (.site var.id :: Stop.outVars rest) = _
      rw [times_cons, ih, times_site, List.flatMap_cons, List.count_append]
      rfl

/-- An argument is a part, or it declares a variable, and never both. -/
private theorem times_actual (h : ∀ node, (inside node).count id ≤ node.sites.count id)
    (route : Path) (e : Expr) :
    times inside id (Stop.actual route e) + (Local.optionSites e.form.outVar?).count id ≤
      e.sites.count id := by
  obtain ⟨form, ty, span⟩ := e
  have hp := times_part h ⟨route, .expr ⟨form, ty, span⟩, false, .freely⟩
  cases form with
  | outVar var => exact Nat.le_of_eq (Nat.zero_add _)
  | _ => exact hp

private theorem times_arguments (h : ∀ node, (inside node).count id ≤ node.sites.count id)
    (args : List Argument) (start : Nat) :
    times inside id (Stop.forEach (fun i arg => Stop.actual [.argument i] arg.value) args start) +
        (args.flatMap fun arg => Local.optionSites arg.value.form.outVar?).count id ≤
      (Argument.listSites args).count id := by
  induction args generalizing start with
  | nil => exact Nat.le_refl 0
  | cons arg rest ih =>
    obtain ⟨e, passing⟩ := arg
    have h₁ := times_actual h [.argument start] e
    have h₂ := ih (start + 1)
    simp only [Stop.forEach, times_append, List.flatMap_cons, Argument.listSites,
      List.count_append]
    omega

private theorem times_invocation (h : ∀ node, (inside node).count id ≤ node.sites.count id)
    (receiver : Option Expr) (args : List Argument) :
    times inside id (Stop.invocation receiver args) ≤
      (Expr.optionSites receiver).count id + (Argument.listSites args).count id := by
  have ha := times_arguments h args 0
  have hr : times inside id (Stop.ofOption (Stop.actual [.receiver]) receiver) +
      (receiver.toList.flatMap fun e => Local.optionSites e.form.outVar?).count id ≤
        (Expr.optionSites receiver).count id := by
    cases receiver with
    | none => exact Nat.le_refl 0
    | some e => simpa [Stop.ofOption, Expr.optionSites] using times_actual h [.receiver] e
  rw [Stop.invocation, times_append, times_append, times_outVars, List.flatMap_map,
    List.flatMap_append, List.flatMap_map, List.count_append]
  omega

private theorem times_inits (h : ∀ node, (inside node).count id ≤ node.sites.count id)
    (inits : List FieldInit) :
    times inside id (Stop.forEach (fun i init => [.free [.init i] init.value]) inits) ≤
      (FieldInit.listSites inits).count id := by
  refine times_list (fun init => init.value.sites) ?_ (fun i init => ?_) inits 0
  · rintro ⟨member, e⟩ rest
    rfl
  · exact times_part h ⟨[.init i], .expr init.value, false, .freely⟩

private theorem times_arms (h : ∀ node, (inside node).count id ≤ node.sites.count id)
    (arms : List Arm) :
    times inside id (Stop.forEach Stop.arm arms) ≤ (Arm.listSites arms).count id := by
  refine times_list (fun a => a.pattern.sites ++ (Expr.optionSites a.guard ++ a.value.sites)) ?_
    (fun i a => ?_) arms 0
  · rintro ⟨p, guard, e⟩ rest
    rfl
  · have h₁ := times_pattern h [.arm i, .pattern] false a.pattern
    have h₂ := times_option h (fun e => ⟨[.arm i, .guard], .expr e, false, .freely⟩)
      (fun _ => rfl) a.guard
    have h₃ := times_part h ⟨[.arm i, .body], .expr a.value, false, .once .forOperand⟩
    rw [Stop.arm, times_append, times_append, List.count_append, List.count_append]
    exact Nat.add_le_add h₁ (Nat.add_le_add h₂ h₃)

/-- The stops of an expression declare no more than the expression. -/
private theorem times_expr (h : ∀ node, (inside node).count id ≤ node.sites.count id)
    (setting : Setting) (e : Expr) : times inside id (e.stops setting) ≤ e.sites.count id := by
  obtain ⟨form, ty, span⟩ := e
  have hp (p : Part) := times_part h p
  have hes (f : Nat → Expr → Part) (hf : ∀ i e, (f i e).node = .expr e) (es : List Expr) :=
    times_exprs h f hf es 0
  cases form with
  | literal | defaultValue | typeToken | typeSize | localVar _ | param _ | thisRef | discard =>
    exact Nat.le_refl 0
  | field receiver member =>
    cases receiver with
    | none => exact Nat.le_refl 0
    | some holder =>
      cases hs : member.isStatic with
      | true => simp [Expr.stops, hs, times_nil]
      | false =>
        simp only [Expr.stops, hs]
        exact hp _
  | arrayElement array indices =>
    simp only [Expr.stops, Expr.sites, Form.sites, List.count_append]
    exact times_cons_le (hp _) (hes _ (fun _ _ => rfl) indices)
  | call receiver method args =>
    rw [Expr.sites, Form.sites, List.count_append]
    exact times_invocation h receiver args
  | objectCreation method args inits =>
    have h₁ := times_invocation h none args
    have h₂ := times_inits h inits
    simp only [Expr.stops, Expr.sites, Form.sites, List.count_append, times_append,
      Expr.optionSites, List.count_nil] at h₁ ⊢
    omega
  | arrayCreation _ sizes elements =>
    simp only [Expr.stops, Expr.sites, Form.sites, List.count_append, times_append]
    exact Nat.add_le_add (hes _ (fun _ _ => rfl) sizes) (hes _ (fun _ _ => rfl) elements)
  | delegateCreation receiver method => exact times_option h _ (fun _ => rfl) receiver
  | stackAlloc count elements =>
    simp only [Expr.stops, Expr.sites, Form.sites, List.count_append]
    exact times_cons_le (hp _) (hes _ (fun _ _ => rfl) elements)
  | collection elements =>
    simp only [Expr.stops]
    split
    · exact hes _ (fun _ _ => rfl) elements
    · exact hes _ (fun _ _ => rfl) elements
  | conditional condition whenTrue whenFalse byRef =>
    simp only [Expr.stops, Expr.sites, Form.sites, List.count_append]
    exact times_cons_le (hp _) (times_cons_le (hp _) (hp _))
  | coalesce left right | compoundAssignment left right =>
    simp only [Expr.stops, Expr.sites, Form.sites, List.count_append]
    exact times_cons_le (hp _) (hp _)
  | tuple elements => exact hes _ (fun _ _ => rfl) elements
  | conversion operand kind =>
    simp only [Expr.stops]
    split <;> exact hp _
  | unary operand =>
    simp only [Expr.stops]
    split <;> exact hp _
  | binary left right | assignment left right _ =>
    simp only [Expr.stops, Expr.sites, Form.sites, List.count_append]
    split <;> exact times_cons_le (hp _) (hp _)
  | outVar var => exact Nat.le_refl _
  | isPattern operand p =>
    simp only [Expr.stops, Expr.sites, Form.sites, List.count_append]
    exact times_cons_le (hp _) (times_pattern h [.pattern] false p)
  | switch governing arms =>
    simp only [Expr.stops, Expr.sites, Form.sites, List.count_append]
    exact times_cons_le (hp _) (times_arms h arms)

private theorem times_block (h : ∀ node, (inside node).count id ≤ node.sites.count id)
    (f : Nat → Stmt → Part) (hf : ∀ i s, (f i s).node = .stmt s) (body : List Stmt) :
    times inside id (Stop.forEach (fun i s => [.part (f i s)]) body) ≤
      (Stmt.listSites body).count id := by
  refine times_list Stmt.sites (fun _ _ => rfl) (fun i s => ?_) body 0
  have := times_part h (f i s)
  rwa [hf] at this

private theorem times_declaration (h : ∀ node, (inside node).count id ≤ node.sites.count id)
    (route : Path) (nested : Bool) (d : Declaration) :
    times inside id (Stop.declaration route nested d) ≤ d.sites.count id := by
  rw [Stop.declaration, times_append, Declaration.sites, List.count_append, times_site]
  exact Nat.add_le_add_right (times_option h _ (fun _ => rfl) d.init) _

private theorem times_resources (h : ∀ node, (inside node).count id ≤ node.sites.count id)
    (resources : List Declaration) :
    times inside id (Stop.forEach (fun i d => Stop.declaration [.init i] true d) resources) ≤
      (resources.flatMap (·.sites)).count id :=
  times_list Declaration.sites (fun _ _ => List.flatMap_cons)
    (fun i d => times_declaration h [.init i] true d) resources 0

private theorem times_labels (h : ∀ node, (inside node).count id ≤ node.sites.count id)
    (route : Path) (labels : List Pattern) :
    times inside id (Stop.forEach (fun j p => p.stops (route ++ [.label j]) true) labels) ≤
      (Pattern.listSites labels).count id :=
  times_list Pattern.sites (fun _ _ => rfl)
    (fun j p => times_pattern h (route ++ [.label j]) true p) labels 0

private theorem times_sections (h : ∀ node, (inside node).count id ≤ node.sites.count id)
    (sections : List Section) :
    times inside id (Stop.forEach Stop.switchSection sections) ≤
      (Section.listSites sections).count id := by
  refine times_list (fun s => Pattern.listSites s.labels ++
    (Expr.optionSites s.guard ++ Stmt.listSites s.body)) ?_ (fun i s => ?_) sections 0
  · rintro ⟨labels, guard, body⟩ rest
    rfl
  · have h₁ := times_labels h [.arm i] s.labels
    have h₂ := times_option h (fun e => ⟨[.arm i, .guard], .expr e, true, .freely⟩)
      (fun _ => rfl) s.guard
    have h₃ := times_block h (fun j s => ⟨[.arm i, .stmt j], .stmt s, true, .once .enterBlock⟩)
      (fun _ _ => rfl) s.body
    rw [Stop.switchSection, times_append, times_append, List.count_append, List.count_append]
    exact Nat.add_le_add h₁ (Nat.add_le_add h₂ h₃)

private theorem times_handlers (h : ∀ node, (inside node).count id ≤ node.sites.count id)
    (catches : List Catch) :
    times inside id (Stop.forEach Stop.handler catches) ≤ (Catch.listSites catches).count id := by
  refine times_list (fun c => Local.optionSites c.var ++
    (Expr.optionSites c.filter ++ Stmt.listSites c.body)) ?_ (fun i c => ?_) catches 0
  · rintro ⟨var, filter, body⟩ rest
    rfl
  · have h₁ : times inside id _ = _ := times_designation c.var
    have h₂ := times_option h (fun e => ⟨[.arm i, .guard], .expr e, true, .freely⟩)
      (fun _ => rfl) c.filter
    have h₃ := times_block h (fun j s => ⟨[.arm i, .stmt j], .stmt s, true, .once .enterBlock⟩)
      (fun _ _ => rfl) c.body
    rw [Stop.handler, times_append, times_append, List.count_append, List.count_append]
    exact Nat.add_le_add (Nat.le_of_eq h₁) (Nat.add_le_add h₂ h₃)

/-- The stops of a statement declare no more than the statement. -/
private theorem times_stmt (h : ∀ node, (inside node).count id ≤ node.sites.count id)
    (setting : Setting) (s : Stmt) : times inside id (s.stops setting) ≤ s.sites.count id := by
  have hp (p : Part) := times_part h p
  have hb (f : Nat → Stmt → Part) (hf : ∀ i s, (f i s).node = .stmt s) (body : List Stmt) :=
    times_block h f hf body
  cases s with
  | block body | uncheckedBlock body => exact hb _ (fun _ _ => rfl) body
  | declare d => exact times_declaration h [.init 0] false d
  | eval e | yieldReturn e => exact hp _
  | ret e | throw e => exact times_option h _ (fun _ => rfl) e
  | ite condition whenTrue whenFalse =>
    cases whenFalse with
    | none =>
      rw [Stmt.sites, List.count_append]
      exact times_cons_le (hp _) (hp _)
    | some other =>
      rw [Stmt.sites, List.count_append, List.count_append]
      exact times_cons_le (hp _) (times_cons_le (hp _) (hp _))
  | whileLoop condition body | doLoop condition body =>
    rw [Stmt.sites, List.count_append]
    exact times_cons_le (hp _) (hp _)
  | forLoop inits condition increments body =>
    rw [Stmt.stops, times_append, times_append, times_append, Stmt.sites, List.count_append,
      List.count_append, List.count_append]
    refine Nat.add_le_add (hb _ (fun _ _ => rfl) inits) (Nat.add_le_add ?_ (Nat.add_le_add ?_ ?_))
    · exact times_option h _ (fun _ => rfl) condition
    · exact times_exprs h _ (fun _ _ => rfl) increments 0
    · exact hp _
  | foreach var collection body =>
    rw [Stmt.sites, List.count_append, List.count_append]
    exact times_cons_le (hp _) (times_cons_le (Nat.le_refl _) (hp _))
  | «using» resources body =>
    rw [Stmt.stops, times_append, Stmt.sites, List.count_append]
    exact Nat.add_le_add (times_resources h resources) (hp _)
  | switch governing sections =>
    rw [Stmt.sites, List.count_append]
    exact times_cons_le (hp _) (times_sections h sections)
  | tryCatch body catches cleanup =>
    have h₁ := hb (fun i s => ⟨[.body, .stmt i], .stmt s, true, .once .enterBlock⟩)
      (fun _ _ => rfl) body
    have h₂ := times_handlers h catches
    cases cleanup with
    | none =>
      rw [Stmt.stops, times_append, times_append, Stmt.sites, List.count_append]
      exact Nat.add_le_add h₁ h₂
    | some final =>
      rw [Stmt.stops, times_append, times_append, Stmt.sites, List.count_append, List.count_append]
      exact Nat.add_le_add h₁ (Nat.add_le_add h₂ (hb _ (fun _ _ => rfl) final))
  | «break» | «continue» | empty => exact Nat.le_refl 0

end Bound

/-- The walk comes by no more declarations of a local than there are in the syntax. -/
theorem Node.count_ids_le (setting : Setting) (levels : Nat) (node : Node) (id : Nat) :
    (node.ids setting levels).count id ≤ node.sites.count id := by
  induction levels generalizing node with
  | zero => exact Nat.zero_le _
  | succ levels ih =>
    cases node with
    | expr e => exact times_expr ih setting e
    | stmt s => exact times_stmt ih setting s

/-- The same for a method body. -/
theorem Stop.count_ids_body_le (setting : Setting) (levels : Nat) (stmts : List Stmt) (id : Nat) :
    (Stop.ids (Node.ids setting levels) (Stop.body stmts)).count id ≤
      (Stmt.listSites stmts).count id :=
  times_block (fun node => node.count_ids_le setting levels id) _ (fun _ _ => rfl) stmts

end RefLifetime
