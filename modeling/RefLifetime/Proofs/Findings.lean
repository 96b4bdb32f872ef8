import RefLifetime.Proofs.Tour

/-!
# What rules report

`Finding.Arises` has one case for each place where a rule reports something, with what is known
there of the demand and of the answers that the rule has had. `Rule.node_reports` says that no rule
reports anything else, so a fact about all findings is proved by going through the cases.
-/

namespace RefLifetime

/-- As long as expressions are answered with scopes that satisfy `S`, everything that the plan
reports satisfies `F`, and its result satisfies `Q`. -/
def Plan.Reports {α : Type} (S : Scope → Prop) (F : Finding → Prop) (Q : α → Prop) : Plan α → Prop
  | .done a => Q a
  | .fail _ => True
  | .visit _ node _ _ next =>
    ∀ scope, ((∃ e, node = .expr e) → S scope) → (next scope).Reports S F Q
  | .lookup _ next => ∀ found, (next found).Reports S F Q
  | .declare _ _ next | .hint _ next => next.Reports S F Q
  | .report finding next => F finding ∧ next.Reports S F Q

namespace Plan.Reports

variable {α β : Type} {S : Scope → Prop} {F : Finding → Prop} {Q : α → Prop} {R : β → Prop}

/-- A plan is continued by another. -/
theorem bind {p : Plan α} {f : α → Plan β} (h : p.Reports S F Q)
    (hf : ∀ a, Q a → (f a).Reports S F R) : (p >>= f).Reports S F R := by
  change (p.bind f).Reports S F R
  induction p with
  | done a => exact hf a h
  | fail cause => trivial
  | visit route node demand inner next ih => exact fun scope hs => ih scope (h scope hs)
  | lookup id next ih => exact fun found => ih found (h found)
  | declare var lifetime next ih => exact ih h
  | report finding next ih => exact ⟨h.1, ih h.2⟩
  | hint id next ih => exact ih h

private theorem discard {p : Plan α} (h : p.Reports S F Q) :
    (Functor.discard p).Reports S F fun _ => True :=
  h.bind fun _ _ => trivial

/-- Plans for the members of a list. -/
theorem forEach {f : Nat → α → Plan β} (h : ∀ i a, (f i a).Reports S F fun _ => True)
    (items : List α) (start : Nat) : (Plan.forEach f items start).Reports S F fun _ => True := by
  induction items generalizing start with
  | nil => trivial
  | cons item rest ih =>
    exact (h start item).bind fun _ _ => (ih (start + 1)).bind fun _ _ => trivial

/-- An expression answers with a scope that satisfies `S`. -/
theorem evaluate (route : Path) (e : Expr) (demand : Demand) :
    (Plan.evaluate route e demand).Reports S F S :=
  fun _ hs => hs ⟨e, rfl⟩

/-- A quiet visit is no report of the plan itself, and its answer satisfies `S`. -/
theorem evaluateQuietly (route : Path) (e : Expr) (demand : Demand) :
    (Plan.evaluateQuietly route e demand).Reports S F S :=
  fun _ hs => hs ⟨e, rfl⟩

/-- The same for the visits of a list of expressions. -/
theorem evaluateAll (step : Nat → Step) (es : List Expr) (demand : Demand) :
    (Plan.evaluateAll step es demand).Reports S F fun _ => True :=
  forEach (f := fun i e => Plan.evaluate [step i] e demand) (fun _ _ _ _ => trivial) es 0

/-- The same for an expression that may be absent. -/
theorem evaluate? (route : Path) (e : Option Expr) (demand : Demand) :
    (Plan.evaluate? route e demand).Reports S F fun _ => True := by
  cases e with
  | none => trivial
  | some e => exact (evaluate route e demand).discard

/-- The same for a statement. -/
theorem perform (route : Path) (s : Stmt) (demand : Demand) (region : Region) :
    (Plan.perform route s demand region).Reports S F fun _ => True :=
  fun _ _ => trivial

/-- A conditional report has to satisfy `F` only where its condition holds. -/
theorem reportIf {violated : Bool} {finding : Finding} (h : violated = true → F finding) :
    (Plan.reportIf violated finding).Reports S F fun _ => True := by
  unfold Plan.reportIf
  split
  · next hv => exact ⟨h hv, trivial⟩
  · trivial

/-- A finding is settled on only if the scope is too narrow. -/
theorem settle {demand : Demand} {scope : Scope} {finding : Finding}
    (h : scope.narrowerThan demand.target = true → F finding) :
    (Plan.settle demand scope finding).Reports S F fun _ => True :=
  (reportIf h).bind fun _ _ => trivial

end Plan.Reports

/-- What the rule for a node can report when `demand` is asked of the node and its expressions are
answered with scopes that satisfy `S`. -/
inductive Finding.Arises (S : Scope → Prop) (rules : Rules) (demand : Demand) : Finding → Prop
  /-- The location of a local does not reach the target. -/
  | localRef (var : Local) (span : Span) (hm : demand.mode = .ref) :
      Arises S rules demand (var.refFinding span demand.target)
  /-- The value of a local or a parameter does not reach the target. -/
  | value (name : String) (span : Span) (hm : demand.mode = .value) :
      Arises S rules demand ⟨.escapeVariable, span, [name]⟩
  /-- The location of a parameter does not reach the target. -/
  | paramRef (p : Param) (span : Span) (hm : demand.mode = .ref)
      (hn : (p.refScope rules).narrowerThan demand.target = true) :
      Arises S rules demand (p.refFinding span (p.refScope rules))
  /-- A value on the stack does not reach the target. -/
  | stack {kind : Violation} (hk : kind = .escapeStackAlloc ∨ kind = .collectionExpressionEscape)
      (e : Expr) : Arises S rules demand ⟨kind, e.span, [e.ty.name]⟩
  /-- What an invocation hands back does not reach the target. -/
  | result (byRef : Bool) (e : Expr) (callee : Method) (culprit : String) :
      Arises S rules demand ⟨.ofCallResult byRef, e.span, [callee.name, culprit]⟩
  /-- An argument could be stored through another. -/
  | mixing (callee : Method) (a : Actual) :
      Arises S rules demand ⟨.callArgMixing, a.expr.span, [callee.name, a.paramName]⟩
  /-- A confined reference is passed to a callee that has not promised to keep it. -/
  | leak (callee : Method) (a : Actual) (p : Param) :
      Arises S rules demand ⟨.nonEscapingArgument, a.expr.span, [callee.name, p.name]⟩
  /-- A reference is re-pointed to a narrower location. -/
  | refAssign {referent : Scope} (hs : S referent) (left right : Expr) :
      Arises S rules demand ⟨.ofRefAssign referent, right.span, [left.name, right.name]⟩
  /-- A reference is re-pointed to a location of which the value is narrower. -/
  | refAssignValue (left right : Expr) :
      Arises S rules demand ⟨.refAssignValueNarrower, right.span, [left.name, right.name]⟩

/-! ### Expressions -/

namespace Rule

open Plan (Reports)

section Silent

variable {S : Scope → Prop} {F : Finding → Prop}

private theorem designation_reports (var : Option Local) (input : Scope) (demand : Demand) :
    (designation var input demand).Reports S F fun _ => True := by
  cases var <;> trivial

mutual

/-- Matching reports nothing. -/
theorem pattern_reports (route : Path) (input : Scope) (demand : Demand) (p : Pattern) :
    (pattern route input demand p).Reports S F fun _ => True := by
  match p with
  | .discard | .type _ | .slice none => trivial
  | .constant value | .relational value => exact (Reports.evaluate _ value _).discard
  | .declaration var => exact designation_reports var input demand
  | .recursive properties var =>
    refine (propertyPatterns_reports route input demand 0 properties).bind fun _ _ => ?_
    exact designation_reports var input demand
  | .list elements var =>
    refine (elementPatterns_reports route input demand 0 elements).bind fun _ _ => ?_
    exact designation_reports var input demand
  | .slice (some rest) => exact pattern_reports _ input demand rest
  | .not inner => exact pattern_reports _ input demand inner
  | .and left right | .or left right =>
    refine (pattern_reports _ input demand left).bind fun _ _ => ?_
    exact pattern_reports _ input demand right

private theorem elementPatterns_reports (route : Path) (input : Scope) (demand : Demand) (i : Nat)
    (ps : List Pattern) : (elementPatterns route input demand i ps).Reports S F fun _ => True := by
  match ps with
  | [] => trivial
  | p :: rest =>
    refine (pattern_reports _ input demand p).bind fun _ _ => ?_
    exact elementPatterns_reports route input demand (i + 1) rest

private theorem propertyPatterns_reports (route : Path) (input : Scope) (demand : Demand) (i : Nat)
    (ps : List Property) :
    (propertyPatterns route input demand i ps).Reports S F fun _ => True := by
  match ps with
  | [] => trivial
  | ⟨member, p⟩ :: rest =>
    refine (pattern_reports _ (carried member.ty input) demand p).bind fun _ _ => ?_
    exact propertyPatterns_reports route input demand (i + 1) rest

end

private theorem field_reports (rules : Rules) (receiver : Option Expr) (member : Field)
    (demand : Demand) : (field rules receiver member demand).Reports S F fun _ => True := by
  cases receiver with
  | none => trivial
  | some holder =>
    cases hs : member.isStatic with
    | true =>
      simp only [field, hs]
      trivial
    | false =>
      rw [field_eq rules holder hs]
      exact (Reports.evaluate _ holder _).bind fun _ _ => trivial

private theorem actual_reports (route : Path) (e : Expr) (p : Option Param) (passing : Passing)
    (demand : Demand) : (actual route e p passing demand).Reports S F fun _ => True := by
  unfold actual
  split
  · trivial
  · split
    · refine (Reports.evaluate route e _).bind fun _ _ => ?_
      exact (Reports.evaluateQuietly route e _).bind fun _ _ => trivial
    · exact (Reports.evaluate route e _).bind fun _ _ => trivial

private theorem actuals_reports (callee : Method) (args : List Argument) (demand : Demand) :
    (actuals callee args demand).Reports S F fun _ => True :=
  .forEach (fun i arg => actual_reports [.argument i] arg.value _ arg.passing demand) args 0

private theorem receiverActual_reports (callee : Method) (receiver : Option Expr)
    (demand : Demand) : (receiverActual callee receiver demand).Reports S F fun _ => True := by
  cases receiver with
  | none => trivial
  | some e => exact (actual_reports [.receiver] e _ _ demand).bind fun _ _ => trivial

private theorem declareOutVars_reports (demand : Demand) (scope : Scope) (given : List Actual) :
    (declareOutVars demand scope given).Reports S F fun _ => True := by
  induction given with
  | nil => trivial
  | cons a rest ih =>
    unfold declareOutVars
    cases a.outVar with
    | none => exact ih
    | some var =>
      intro found
      cases found with
      | none => exact ih
      | some lifetime => exact ih

private theorem hintAll_reports (ids : List Nat) : (hintAll ids).Reports S F fun _ => True := by
  induction ids with
  | nil => trivial
  | cons id rest ih => exact ih

private theorem fieldInit_reports (rules : Rules) (i : Nat) (init : FieldInit) (demand : Demand) :
    (fieldInit rules i init demand).Reports S F fun _ => True :=
  (Reports.evaluate _ init.value _).bind fun _ _ => trivial

private theorem joined_reports (left right : Expr) (demand : Demand) :
    (joined left right demand).Reports S F fun _ => True :=
  (Reports.evaluate _ left _).bind fun _ _ => (Reports.evaluate _ right _).bind fun _ _ => trivial

private theorem readBoth_reports (left right : Expr) (demand : Demand) :
    (readBoth left right demand).Reports S F fun _ => True :=
  (Reports.evaluate _ left _).discard.bind fun _ _ =>
    (Reports.evaluate _ right _).discard.bind fun _ _ => trivial

private theorem conditional_reports (condition whenTrue whenFalse : Expr) (byRef : Bool)
    (demand : Demand) :
    (conditional condition whenTrue whenFalse byRef demand).Reports S F fun _ => True := by
  refine (Reports.evaluate _ condition _).discard.bind fun _ _ => ?_
  split
  · refine (Reports.evaluate _ whenTrue _).discard.bind fun _ _ => ?_
    exact (Reports.evaluate _ whenFalse _).discard.bind fun _ _ => trivial
  · refine (Reports.evaluate _ whenTrue _).bind fun _ _ => ?_
    exact (Reports.evaluate _ whenFalse _).bind fun _ _ => trivial

private theorem arm_reports (input : Scope) (demand : Demand) (i : Nat) (a : Arm) :
    (arm input demand i a).Reports S F fun _ => True := by
  refine (pattern_reports _ input demand a.pattern).bind fun _ _ => ?_
  exact (Reports.evaluate? _ a.guard _).bind fun _ _ _ _ => trivial

private theorem valueAssignment_reports (left right : Expr) (demand : Demand) :
    (valueAssignment left right demand).Reports S F fun _ => True :=
  (Reports.evaluate _ left _).bind fun _ _ => (Reports.evaluate _ right _).bind fun _ _ => trivial

end Silent

private theorem reportAll_reports {S : Scope → Prop} {F : Finding → Prop} {findings : List Finding}
    (h : ∀ finding ∈ findings, F finding) : (reportAll findings).Reports S F fun _ => True := by
  induction findings with
  | nil => trivial
  | cons finding rest ih =>
    obtain ⟨hf, hr⟩ := List.forall_mem_cons.mp h
    exact ⟨hf, ih hr⟩

variable {S : Scope → Prop} {rules : Rules} {demand : Demand}

private theorem localVar_reports (var : Local) (span : Span) :
    (localVar var span demand).Reports S (Finding.Arises S rules demand) fun _ => True := by
  intro found
  cases found with
  | none => trivial
  | some lifetime =>
    dsimp only
    split
    · next hm => exact .settle fun _ => .localRef var span hm
    · next hm => exact .settle fun _ => .value var.name span hm

private theorem param_reports (p : Param) (span : Span) :
    (param rules p span demand).Reports S (Finding.Arises S rules demand) fun _ => True := by
  unfold param
  split
  · next hm => exact .settle fun hn => .paramRef p span hm hn
  · next hm => exact .settle fun _ => .value p.name span hm

private theorem stackValue_reports {kind : Violation}
    (hk : kind = .escapeStackAlloc ∨ kind = .collectionExpressionEscape) (e : Expr) :
    (stackValue kind e demand).Reports S (Finding.Arises S rules demand) fun _ => True :=
  (Reports.reportIf fun _ => .stack hk e).bind fun _ _ => trivial

/-- A call site is reported on argument by argument. -/
theorem callSite_reports (callee : Method) (given : List Actual) :
    (callSite rules callee demand given).Reports S (Finding.Arises S rules demand)
      fun _ => True := by
  refine (declareOutVars_reports demand _ given).bind fun _ _ => ?_
  refine (reportAll_reports fun finding hf => ?_).bind fun _ _ =>
    (reportAll_reports fun finding hf => ?_).bind fun _ _ =>
      (hintAll_reports _).bind fun _ _ => trivial
  · obtain ⟨i, -, hf⟩ := List.mem_filterMap.mp hf
    obtain ⟨a, -, rfl⟩ := Option.map_eq_some_iff.mp hf
    exact .mixing callee a
  · obtain ⟨a, -, hf⟩ := List.mem_filterMap.mp hf
    unfold Invocation.leakFinding? at hf
    split at hf
    · cases hf
    · next p _ =>
      split at hf
      · cases hf
        exact .leak callee a p
      · cases hf

private theorem call_reports (e : Expr) (receiver : Option Expr) (callee : Method)
    (args : List Argument) :
    (call rules e receiver callee args demand).Reports S (Finding.Arises S rules demand)
      fun _ => True := by
  refine (receiverActual_reports callee receiver demand).bind fun own _ => ?_
  refine (actuals_reports callee args demand).bind fun given _ => ?_
  refine (callSite_reports callee _).bind fun bound _ => ?_
  dsimp only
  generalize (if demand.isRef then callee.returnsByRef else e.ty.isRefLike) = carries
  cases carries with
  | true => exact .settle fun _ => .result _ e callee _
  | false => trivial

private theorem objectCreation_reports (e : Expr) (constructor : Method) (args : List Argument)
    (inits : List FieldInit) :
    (objectCreation rules e constructor args inits demand).Reports S (Finding.Arises S rules demand)
      fun _ => True := by
  refine (actuals_reports constructor args demand).bind fun given _ => ?_
  refine (callSite_reports constructor given).bind fun bound _ => ?_
  refine (Reports.forEach (fun i init => fieldInit_reports rules i init demand) inits 0).bind ?_
  intro initialized _
  dsimp only
  split
  · exact .settle fun _ => .result false e constructor _
  · trivial

/-- The referent that a reference is re-pointed to is an answer. -/
theorem refAssignment_reports (left right : Expr) :
    (refAssignment left right demand).Reports S (Finding.Arises S rules demand)
      fun _ => True := by
  refine (Reports.evaluate _ left _).bind fun target _ => ?_
  refine (Reports.evaluate _ right _).bind fun referent hr => ?_
  dsimp only
  split
  case' isTrue => refine ⟨.refAssign hr left right, ?_⟩
  case' isFalse => split
  case' isFalse.isTrue =>
    refine (Reports.evaluateQuietly _ left _).bind fun held _ => ?_
    refine (Reports.evaluateQuietly _ right _).bind fun value _ => ?_
    refine (Reports.reportIf fun _ => .refAssignValue left right).bind fun _ _ => ?_
  -- However the checks went, what follows is silent.
  all_goals
    split
    · trivial
    · exact fun _ _ => trivial

end Rule

/-- The rule for an expression reports what arises there. -/
theorem Rule.expr_reports {S : Scope → Prop} (setting : Setting) (e : Expr) (demand : Demand) :
    (Rule.expr setting e demand).Reports S (Finding.Arises S setting.rules demand)
      fun _ => True := by
  obtain ⟨form, ty, span⟩ := e
  cases form with
  | literal | defaultValue | typeToken | typeSize | discard => trivial
  | localVar var => exact localVar_reports var span
  | param p => exact param_reports p span
  | thisRef =>
    simp only [Rule.expr, thisRef]
    split
    · trivial
    · exact param_reports _ span
  | field receiver member => exact field_reports setting.rules receiver member demand
  | arrayElement array indices =>
    refine (Plan.Reports.evaluate _ array _).discard.bind fun _ _ => ?_
    exact (Plan.Reports.evaluateAll _ indices _).discard.bind fun _ _ => trivial
  | call receiver callee args => exact call_reports _ receiver callee args
  | objectCreation constructor args inits => exact objectCreation_reports _ constructor args inits
  | arrayCreation id sizes elements =>
    refine (Plan.Reports.evaluateAll _ sizes _).discard.bind fun _ _ => ?_
    exact (Plan.Reports.evaluateAll _ elements _).discard.bind fun _ _ => trivial
  | delegateCreation receiver method =>
    exact (Plan.Reports.evaluate? _ receiver _).bind fun _ _ => trivial
  | stackAlloc count elements =>
    refine (Plan.Reports.evaluate _ count _).discard.bind fun _ _ => ?_
    refine (Plan.Reports.evaluateAll _ elements _).discard.bind fun _ _ => ?_
    exact stackValue_reports (.inl rfl) _
  | collection elements =>
    simp only [Rule.expr]
    split
    · refine (Plan.Reports.evaluateAll _ elements _).discard.bind fun _ _ => ?_
      exact stackValue_reports (.inr rfl) _
    · exact (Plan.Reports.evaluateAll _ elements _).discard.bind fun _ _ => trivial
  | conditional condition whenTrue whenFalse byRef =>
    exact conditional_reports condition whenTrue whenFalse byRef demand
  | coalesce left right => exact joined_reports left right demand
  | tuple elements => exact (Plan.Reports.evaluateAll _ elements _).bind fun _ _ => trivial
  | conversion operand kind =>
    simp only [Rule.expr]
    split
    · exact fun _ _ => trivial
    · exact (Plan.Reports.evaluate _ operand _).discard.bind fun _ _ => trivial
  | unary operand =>
    simp only [Rule.expr]
    split
    · exact (Plan.Reports.evaluate _ operand _).bind fun _ _ => trivial
    · exact (Plan.Reports.evaluate _ operand _).discard.bind fun _ _ => trivial
  | binary left right =>
    simp only [Rule.expr]
    split
    · exact joined_reports left right demand
    · exact readBoth_reports left right demand
  | assignment left right byRef =>
    simp only [Rule.expr]
    split
    · exact refAssignment_reports left right
    · exact valueAssignment_reports left right demand
  | compoundAssignment left right => exact readBoth_reports left right demand
  | outVar var =>
    intro found
    cases found with
    | none => exact localVar_reports var span
    | some lifetime => exact localVar_reports var span
  | isPattern operand p =>
    refine (Plan.Reports.evaluate _ operand _).bind fun input _ => ?_
    exact (pattern_reports _ input demand p).bind fun _ _ => trivial
  | switch governing arms =>
    refine (Plan.Reports.evaluate _ governing _).bind fun input _ => ?_
    exact (Plan.Reports.forEach (arm_reports input demand) arms 0).bind fun _ _ => trivial

/-! ### Statements -/

namespace Rule

open Plan (Reports)

variable {S : Scope → Prop} {F : Finding → Prop}

/-- Statements are performed without a report of the rule itself. -/
theorem stmts_reports (route : Path) (body : List Stmt) (demand : Demand) (region : Region) :
    (stmts route body demand region).Reports S F fun _ => True :=
  (Reports.forEach (fun _ s => Reports.perform _ s demand region) body 0).discard

private theorem declaration_reports (route : Path) (d : Declaration) (demand : Demand) :
    (declaration route d demand).Reports S F fun _ => True := by
  unfold declaration
  cases d.init with
  | none => trivial
  | some init =>
    dsimp only
    split
    · refine (Reports.evaluate route init _).bind fun _ _ => ?_
      exact (Reports.evaluateQuietly route init _).bind fun _ _ => trivial
    · exact (Reports.evaluate route init _).bind fun _ _ => trivial

private theorem switchSection_reports (input : Scope) (inner : Demand) (i : Nat) (s : Section) :
    (switchSection input inner i s).Reports S F fun _ => True := by
  refine (Reports.forEach (fun j p => pattern_reports [.arm i, .label j] input inner p)
    s.labels 0).discard.bind fun _ _ => ?_
  refine (Reports.evaluate? _ s.guard _).bind fun _ _ => ?_
  exact stmts_reports [.arm i] s.body inner .checked

private theorem handler_reports (inner : Demand) (i : Nat) (c : Catch) :
    (handler inner i c).Reports S F fun _ => True := by
  have hrest : Plan.Reports S F (fun _ => True) (do
      Plan.evaluate? [.arm i, .guard] c.filter inner.forValue
      stmts [.arm i] c.body inner) :=
    (Reports.evaluate? _ c.filter _).bind fun _ _ => stmts_reports [.arm i] c.body inner .checked
  unfold handler
  cases c.var with
  | none => exact hrest
  | some var => exact hrest

/-- A statement reports nothing by itself. -/
theorem stmt_reports (setting : Setting) (s : Stmt) (demand : Demand) :
    (stmt setting s demand).Reports S F fun _ => True := by
  cases s with
  | block body => exact stmts_reports [] body _ .checked
  | uncheckedBlock body => exact stmts_reports [] body _ .unchecked
  | declare d => exact declaration_reports _ d demand
  | eval value | yieldReturn value => exact (Reports.evaluate _ value _).discard
  | ret value | throw value => exact .evaluate? _ value _
  | ite condition whenTrue whenFalse =>
    refine (Reports.evaluate _ condition _).discard.bind fun _ _ => ?_
    refine (Reports.perform _ whenTrue _ .checked).bind fun _ _ => ?_
    cases whenFalse with
    | none => trivial
    | some other => exact .perform _ other _ .checked
  | whileLoop condition body | doLoop condition body =>
    refine (Reports.evaluate _ condition _).discard.bind fun _ _ => ?_
    exact .perform _ body _ .checked
  | forLoop inits condition increments body =>
    refine (Reports.forEach (fun _ s => .perform _ s _ .checked) inits 0).discard.bind fun _ _ => ?_
    refine (Reports.evaluate? _ condition _).bind fun _ _ => ?_
    refine (Reports.evaluateAll _ increments _).discard.bind fun _ _ => ?_
    exact .perform _ body _ .checked
  | foreach var collection body =>
    refine (Reports.evaluate _ collection _).bind fun scope _ => ?_
    exact Reports.perform [.body] body demand.enterBlock .checked
  | «using» resources body =>
    refine (Reports.forEach (fun i d => declaration_reports _ d _) resources 0).discard.bind ?_
    exact fun _ _ => .perform _ body _ .checked
  | switch governing sections =>
    refine (Reports.evaluate _ governing _).bind fun input _ => ?_
    exact (Reports.forEach (switchSection_reports input _) sections 0).discard
  | tryCatch body catches cleanup =>
    refine (stmts_reports [.body] body _ .checked).bind fun _ _ => ?_
    refine (Reports.forEach (handler_reports _) catches 0).discard.bind fun _ _ => ?_
    cases cleanup with
    | none => trivial
    | some final => exact stmts_reports [.cleanup] final _ .checked
  | «break» | «continue» | empty => trivial

/-- Every rule reports what arises at its node, and nothing else. -/
theorem node_reports (setting : Setting) (node : Node) (demand : Demand) :
    (Rule.node setting node demand).Reports S (Finding.Arises S setting.rules demand)
      fun _ => True := by
  cases node with
  | expr e => exact expr_reports setting e demand
  | stmt s => exact (stmt_reports setting s demand).bind fun _ _ => trivial

end Rule

end RefLifetime
