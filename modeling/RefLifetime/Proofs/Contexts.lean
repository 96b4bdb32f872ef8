import RefLifetime.Proofs.Apart
import RefLifetime.Proofs.Tour

/-!
# What an expression can be asked for

An expression may be asked for several times, but what it is asked is regular: always the same, or
nothing beyond the block that it stands in. Regularity is handed down: `Node.stops_usual` lists the
ways in which rules ask for parts, and each of them keeps it (`Node.stops_calm`).
-/

namespace RefLifetime

/-- The demands are on something in `block`, and there is at most one of them unless none requires
anything beyond that block. -/
def Demand.Regular (block : Scope) (asked : Demand → Prop) : Prop :=
  (∀ demand, asked demand → demand.block = block) ∧
    ((∃ only, ∀ demand, asked demand → demand = only) ∨
      ∀ demand, asked demand → demand.target = block)

/-- A demand without a requirement beyond its block is for a value or for a location. -/
theorem Demand.eq_within {demand : Demand} {block : Scope} (hb : demand.block = block)
    (ht : demand.target = block) :
    demand = .within .ref block ∨ demand = .within .value block := by
  obtain ⟨own, mode, target⟩ := demand
  cases hb
  cases ht
  cases mode with
  | value => exact .inr rfl
  | ref => exact .inl rfl

/-- If nothing is required of the whole beyond its block, then nothing is required of the part
beyond its own, or always the same. -/
def Part.Calm (p : Part) : Prop :=
  match p.asking with
  | .once asked =>
    ∀ block, (∀ mode, (asked (.within mode block)).target = p.block block) ∨
      ∀ mode, asked (.within mode block) = asked (.within .value block)
  | .freely | .into _ => True

/-- The ways in which rules ask for the parts of a node. -/
inductive Part.Usual (setting : Setting) : Part → Prop
  | free {route : Path} {node : Node} {nested : Bool} :
      Usual setting ⟨route, node, nested, .freely⟩
  /-- The demand on the whole is passed on. -/
  | same {route : Path} {node : Node} : Usual setting ⟨route, node, false, .once id⟩
  | inBlock {route : Path} {node : Node} : Usual setting ⟨route, node, true, .once .enterBlock⟩
  /-- The method hands back the part. -/
  | returned {route : Path} {node : Node} (mode : Mode) :
      Usual setting ⟨route, node, false, .once (·.requiring mode setting.rules.returnScope)⟩
  | onHeap {route : Path} {node : Node} : Usual setting ⟨route, node, false, .once .forHeap⟩
  | operand {route : Path} {node : Node} : Usual setting ⟨route, node, false, .once .forOperand⟩
  | branch {route : Path} {node : Node} (byRef : Bool) :
      Usual setting ⟨route, node, false, .once (.forBranch byRef)⟩
  | holder {route : Path} {node : Node} (member : Field) (e : Expr) :
      Usual setting ⟨route, node, false, .once (member.holderDemand setting.rules e)⟩
  /-- The part is stored in the location at `place`. -/
  | stored {route : Path} {node : Node} (place : Path) :
      Usual setting ⟨route, node, false, .into place⟩

private theorem Part.usual_of_freely {setting : Setting} {p : Part} (h : p.asking = .freely) :
    p.Usual setting := by
  cases p
  cases h
  exact .free

/-- The usual ways of asking are calm. -/
theorem Part.Usual.calm {setting : Setting} {p : Part} (h : p.Usual setting) : p.Calm := by
  cases h with
  | free | stored => trivial
  | same | inBlock => exact fun _ => .inl fun _ => rfl
  | returned | onHeap => exact fun _ => .inr fun _ => rfl
  | operand =>
    intro block
    refine .inl fun mode => ?_
    cases mode <;> rfl
  | branch byRef =>
    intro block
    refine .inl fun mode => ?_
    cases mode <;> cases byRef <;> rfl
  | holder member e =>
    intro block
    refine .inl fun mode => ?_
    simp only [Field.holderDemand]
    split <;> rfl

/-- The parts of an expression are asked for in the usual ways. -/
theorem Expr.stops_usual (setting : Setting) (e : Expr) :
    Stop.All (Part.Usual setting) (e.stops setting) := by
  obtain ⟨form, ty, span⟩ := e
  have hl {l : List Stop} (h : Stop.All (Stop.Loose false) l) : Stop.All (Part.Usual setting) l :=
    h.imp fun _ h => Part.usual_of_freely h.2
  cases form with
  | literal | defaultValue | typeToken | typeSize | localVar _ | param _ | thisRef | discard =>
    exact Stop.all_nil
  | field receiver member =>
    simp only [stops]
    split
    · exact Stop.all_part (.holder member _)
    · exact Stop.all_nil
  | arrayElement array indices =>
    exact (Stop.all_exprs (fun _ _ => .free) indices).cons .free
  | call receiver method args => exact hl (Stop.all_invocation receiver args)
  | objectCreation method args inits =>
    refine (hl (Stop.all_invocation none args)).append (Stop.all_forEach (fun i init => ?_) inits 0)
    exact Stop.all_part .free
  | arrayCreation id sizes elements =>
    refine (Stop.all_exprs (fun _ _ => .free) sizes).append ?_
    exact Stop.all_exprs (fun _ _ => .onHeap) elements
  | delegateCreation receiver method =>
    exact Stop.all_ofOption (fun e => Stop.all_part .onHeap) receiver
  | stackAlloc count elements =>
    exact (Stop.all_exprs (fun _ _ => .free) elements).cons .free
  | collection elements =>
    simp only [stops]
    split
    · exact Stop.all_exprs (fun _ _ => .free) elements
    · exact Stop.all_exprs (fun _ _ => .onHeap) elements
  | conditional condition whenTrue whenFalse byRef =>
    exact ((Stop.all_part (.branch byRef)).cons (.branch byRef)).cons .free
  | coalesce left right => exact (Stop.all_part .operand).cons .operand
  | compoundAssignment left right => exact (Stop.all_part .free).cons .free
  | tuple elements => exact Stop.all_exprs (fun _ _ => .operand) elements
  | conversion operand kind =>
    simp only [stops]
    split
    · exact Stop.all_part .same
    · exact Stop.all_part .free
  | unary operand =>
    simp only [stops]
    split
    · exact Stop.all_part .operand
    · exact Stop.all_part .free
  | binary left right =>
    simp only [stops]
    split
    · exact (Stop.all_part .operand).cons .operand
    · exact (Stop.all_part .free).cons .free
  | assignment left right byRef =>
    simp only [stops]
    split
    · exact (Stop.all_part .free).cons .free
    · exact .cons .free (Stop.all_part (.stored [.left]))
  | outVar var => exact Stop.all_nil.cons_site
  | isPattern operand p => exact (hl (p.stops_loose [.pattern] false)).cons .free
  | switch governing arms =>
    refine (Stop.all_forEach (fun i a => ?_) arms 0).cons .free
    refine (hl (a.pattern.stops_loose [.arm i, .pattern] false)).append (.append ?_ ?_)
    · exact Stop.all_ofOption (fun e => Stop.all_part .free) a.guard
    · exact Stop.all_part .operand

/-- The parts of a statement are asked for in the usual ways. -/
theorem Stmt.stops_usual (setting : Setting) (s : Stmt) :
    Stop.All (Part.Usual setting) (s.stops setting) := by
  have hfree (e : Option Expr) (route : Path) (nested : Bool) :
      Stop.All (Part.Usual setting) (Stop.ofOption (fun e => [.free route e nested]) e) :=
    Stop.all_ofOption (fun _ => Stop.all_part .free) e
  have hblock (route : Path) (body : List Stmt) :
      Stop.All (Part.Usual setting) (Stop.block route body) :=
    Stop.all_forEach (fun _ _ => Stop.all_part .inBlock) body 0
  have hdecl (route : Path) (nested : Bool) (d : Declaration) :
      Stop.All (Part.Usual setting) (Stop.declaration route nested d) :=
    (hfree d.init route nested).append Stop.all_nil.cons_site
  cases s with
  | block body | uncheckedBlock body => exact hblock [] body
  | declare d => exact hdecl [.init 0] false d
  | eval value | yieldReturn value => exact Stop.all_part .free
  | ret value => exact Stop.all_ofOption (fun _ => Stop.all_part (.returned _)) value
  | throw value => exact Stop.all_ofOption (fun _ => Stop.all_part .onHeap) value
  | ite condition whenTrue whenFalse =>
    refine .append ((Stop.all_part .same).cons .free) ?_
    exact Stop.all_ofOption (fun _ => Stop.all_part .same) whenFalse
  | whileLoop condition body | doLoop condition body =>
    exact (Stop.all_part .same).cons .free
  | forLoop inits condition increments body =>
    refine .append ?_ ((hfree condition _ true).append (.append ?_ (Stop.all_part .inBlock)))
    · exact Stop.all_forEach (fun _ _ => Stop.all_part .inBlock) inits 0
    · exact Stop.all_forEach (fun _ _ => Stop.all_part .free) increments 0
  | foreach var collection body =>
    exact .cons .free (.cons_site (Stop.all_part .inBlock))
  | «using» resources body =>
    refine .append ?_ (Stop.all_part .inBlock)
    exact Stop.all_forEach (fun i d => hdecl [.init i] true d) resources 0
  | switch governing sections =>
    refine .cons .free (Stop.all_forEach (fun i s => ?_) sections 0)
    refine .append ?_ ((hfree s.guard _ true).append (hblock [.arm i] s.body))
    refine Stop.all_forEach (fun j p => ?_) s.labels 0
    exact (p.stops_loose [.arm i, .label j] true).imp fun _ h => Part.usual_of_freely h.2
  | tryCatch body catches cleanup =>
    refine (hblock [.body] body).append (.append ?_ (Stop.all_ofOption (hblock [.cleanup]) cleanup))
    refine Stop.all_forEach (fun i c => ?_) catches 0
    exact (Stop.all_ofOption (fun _ => Stop.all_nil.cons_site) c.var).append
      ((hfree c.filter _ true).append (hblock [.arm i] c.body))
  | «break» | «continue» | empty => exact Stop.all_nil

/-- The parts of a node are asked for in the usual ways. -/
theorem Node.stops_usual (setting : Setting) (n : Node) :
    Stop.All (Part.Usual setting) (n.stops setting) := by
  cases n with
  | expr e => exact e.stops_usual setting
  | stmt s => exact s.stops_usual setting

/-- The parts of a node are asked for calmly. -/
theorem Node.stops_calm (setting : Setting) (n : Node) : Stop.All Part.Calm (n.stops setting) :=
  (n.stops_usual setting).imp fun _ h => h.calm

/-- So are the statements of a method body. -/
theorem Stop.body_calm (stmts : List Stmt) : Stop.All Part.Calm (Stop.body stmts) :=
  Stop.all_forEach (fun _ _ => Stop.all_part fun _ => .inl fun _ => rfl) stmts 0

/-! ### Where expressions stand -/

/-- In a node that stands in `block`, the expression `e` is found at a path, in its own block. -/
inductive Node.Stands (setting : Setting) (e : Expr) (own : Scope) :
    Node → (block : Scope) → Path → Prop
  | here : Stands setting e own (.expr e) own []
  | inside {node : Node} {block : Scope} {p : Part} {path : Path}
      (hp : .part p ∈ node.stops setting)
      (h : Stands setting e own p.node (p.block block) path) :
      Stands setting e own node block (p.route ++ path)

/-- In a method body, the expression `e` is found at `path`, in the block `own`. -/
def Body.Stands (body : Body) (rules : Rules) (path : Path) (e : Expr) (own : Scope) : Prop :=
  ∃ p, .part p ∈ Stop.body body.stmts ∧ ∃ inner, path = p.route ++ inner ∧
    p.node.Stands ⟨rules, body.method⟩ e own (p.block Demand.methodBody.block) inner

end RefLifetime
