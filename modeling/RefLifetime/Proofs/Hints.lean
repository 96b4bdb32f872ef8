import RefLifetime.Proofs.HeapFields
import RefLifetime.Proofs.Keeping
import RefLifetime.Proofs.Mixing
import RefLifetime.Proofs.StackArrays

/-!
# Hints about arrays

An analysis that ends well hints at exactly the arrays that the syntax shows to be fit for the
stack, each once and in the order of the walk (`analyze_hints_at_stack_arrays`). However often a
part is evaluated, only its first visit is aloud, and what that visit hints at are the arrays in the
part (`Walker.HintsAtArrays`). Only call sites hint at anything themselves: the plans of all other
nodes are `Plan.Hintless`.
-/

namespace RefLifetime

/-! ### Plans without hints -/

namespace Plan

variable {α β : Type}

/-- The plan passes no hint on, whatever it is answered. -/
def Hintless : Plan α → Prop
  | done _ | fail _ => True
  | visit _ _ _ _ next => ∀ scope, (next scope).Hintless
  | lookup _ next => ∀ found, (next found).Hintless
  | declare _ _ next | report _ next => next.Hintless
  | hint _ _ => False

namespace Hintless

/-- Two plans without hints, one after the other. -/
theorem bind {p : Plan α} {f : α → Plan β} (h : p.Hintless) (hf : ∀ a, (f a).Hintless) :
    (p >>= f).Hintless := by
  change (p.bind f).Hintless
  induction p with
  | done a => exact hf a
  | fail cause => trivial
  | visit route node demand mood next ih => exact fun scope => ih scope (h scope)
  | lookup id next ih => exact fun found => ih found (h found)
  | declare var lifetime next ih => exact ih h
  | report finding next ih => exact ih h
  | hint id next ih => exact h.elim

private theorem discard {p : Plan α} (h : p.Hintless) : (Functor.discard p).Hintless :=
  h.bind fun _ => trivial

/-- A visit is no hint of the plan itself. -/
theorem evaluate (route : Path) (e : Expr) (demand : Demand) :
    (Plan.evaluate route e demand).Hintless := fun _ => trivial

/-- A quiet visit is no hint of the plan itself. -/
theorem evaluateQuietly (route : Path) (e : Expr) (demand : Demand) :
    (Plan.evaluateQuietly route e demand).Hintless := fun _ => trivial

/-- The visit of a statement is no hint of the plan itself. -/
theorem perform (route : Path) (s : Stmt) (demand : Demand) (region : Region) :
    (Plan.perform route s demand region).Hintless := fun _ => trivial

/-- A declaration is no hint. -/
theorem declaring (var : Local) (lifetime : Lifetime) :
    (Plan.declaring var lifetime).Hintless :=
  trivial

/-- A report is no hint. -/
theorem reportIf (violated : Bool) (finding : Finding) :
    (Plan.reportIf violated finding).Hintless := by
  unfold Plan.reportIf
  split <;> trivial

private theorem settle (demand : Demand) (scope : Scope) (finding : Finding) :
    (Plan.settle demand scope finding).Hintless :=
  (reportIf _ finding).bind fun _ => trivial

/-- Plans without hints for the items of a list, one after another. -/
theorem forEach {f : Nat → α → Plan β} (h : ∀ i a, (f i a).Hintless) (items : List α)
    (start : Nat) : (Plan.forEach f items start).Hintless := by
  induction items generalizing start with
  | nil => trivial
  | cons item rest ih => exact (h start item).bind fun _ => (ih (start + 1)).bind fun _ => trivial

/-- The visits of a list of expressions. -/
theorem evaluateAll (step : Nat → Step) (es : List Expr) (demand : Demand) :
    (Plan.evaluateAll step es demand).Hintless := forEach (fun _ _ => evaluate _ _ _) es 0

/-- The visit of an expression that may be absent. -/
theorem evaluate? (route : Path) (e : Option Expr) (demand : Demand) :
    (Plan.evaluate? route e demand).Hintless := by
  cases e with
  | none => trivial
  | some e => exact (evaluate route e demand).discard

end Hintless

end Plan

namespace Rule

open Plan (Hintless)

private theorem designation_hintless (var : Option Local) (input : Scope) (demand : Demand) :
    (designation var input demand).Hintless := by
  cases var with
  | none => trivial
  | some v => exact .declaring v _

mutual

private theorem pattern_hintless (route : Path) (input : Scope) (demand : Demand) :
    (p : Pattern) → (pattern route input demand p).Hintless
  | .discard | .type _ | .slice none => trivial
  | .constant value | .relational value => (Hintless.evaluate _ value _).discard
  | .declaration var => designation_hintless var input demand
  | .recursive properties var =>
    (propertyPatterns_hintless route input demand properties 0).bind fun _ =>
      designation_hintless var input demand
  | .list elements var =>
    (elementPatterns_hintless route input demand elements 0).bind fun _ =>
      designation_hintless var input demand
  | .slice (some rest) => pattern_hintless _ input demand rest
  | .not inner => pattern_hintless _ input demand inner
  | .and left right | .or left right =>
    (pattern_hintless _ input demand left).bind fun _ => pattern_hintless _ input demand right
termination_by structural p => p

private theorem elementPatterns_hintless (route : Path) (input : Scope) (demand : Demand) :
    (ps : List Pattern) → (i : Nat) → (elementPatterns route input demand i ps).Hintless
  | [], _ => trivial
  | p :: rest, i =>
    (pattern_hintless _ input demand p).bind fun _ =>
      elementPatterns_hintless route input demand rest (i + 1)
termination_by structural ps => ps

private theorem propertyPatterns_hintless (route : Path) (input : Scope) (demand : Demand) :
    (ps : List Property) → (i : Nat) → (propertyPatterns route input demand i ps).Hintless
  | [], _ => trivial
  | ⟨_, p⟩ :: rest, i =>
    (pattern_hintless _ _ demand p).bind fun _ =>
      propertyPatterns_hintless route input demand rest (i + 1)
termination_by structural ps => ps

end

private theorem localVar_hintless (var : Local) (span : Span) (demand : Demand) :
    (localVar var span demand).Hintless := by
  intro found
  cases found with
  | none => trivial
  | some lifetime => cases demand.mode <;> exact .settle demand _ _

private theorem param_hintless (rules : Rules) (p : Param) (span : Span) (demand : Demand) :
    (param rules p span demand).Hintless := by
  unfold param
  split <;> exact .settle demand _ _

private theorem thisRef_hintless (setting : Setting) (span : Span) (demand : Demand) :
    (thisRef setting span demand).Hintless := by
  unfold thisRef
  split
  · trivial
  · exact param_hintless setting.rules _ span demand

private theorem field_hintless (rules : Rules) (receiver : Option Expr) (member : Field)
    (demand : Demand) : (field rules receiver member demand).Hintless := by
  cases receiver with
  | none => trivial
  | some holder =>
    cases hs : member.isStatic with
    | true =>
      simp only [field, hs]
      trivial
    | false =>
      rw [field_eq rules holder hs]
      exact (Hintless.evaluate _ holder _).bind fun _ => trivial

private theorem actual_hintless (route : Path) (e : Expr) (p : Option Param) (passing : Passing)
    (demand : Demand) : (actual route e p passing demand).Hintless := by
  unfold actual
  split
  · trivial
  · split
    · exact (Hintless.evaluate route e _).bind fun _ =>
        (Hintless.evaluateQuietly route e _).bind fun _ => trivial
    · exact (Hintless.evaluate route e _).bind fun _ => trivial

private theorem evaluated_hintless (callee : Method) (receiver : Option Expr) (args : List Argument)
    (demand : Demand) : (evaluated callee receiver args demand).Hintless := by
  have hargs : (actuals callee args demand).Hintless :=
    Hintless.forEach (fun _ _ => actual_hintless _ _ _ _ demand) args 0
  refine Hintless.bind ?_ fun _ => hargs.bind fun _ => trivial
  cases receiver with
  | none => trivial
  | some e => exact (actual_hintless [.receiver] e _ _ demand).bind fun _ => trivial

private theorem fieldInit_hintless (rules : Rules) (i : Nat) (init : FieldInit) (demand : Demand) :
    (fieldInit rules i init demand).Hintless := (Hintless.evaluate _ _ _).bind fun _ => trivial

private theorem stackValue_hintless (kind : Violation) (e : Expr) (demand : Demand) :
    (stackValue kind e demand).Hintless := (Hintless.reportIf _ _).bind fun _ => trivial

private theorem joined_hintless (left right : Expr) (demand : Demand) :
    (joined left right demand).Hintless :=
  (Hintless.evaluate _ left _).bind fun _ => (Hintless.evaluate _ right _).bind fun _ => trivial

private theorem readBoth_hintless (left right : Expr) (demand : Demand) :
    (readBoth left right demand).Hintless :=
  (Hintless.evaluate _ left _).discard.bind fun _ =>
    (Hintless.evaluate _ right _).discard.bind fun _ => trivial

private theorem conditional_hintless (condition whenTrue whenFalse : Expr) (byRef : Bool)
    (demand : Demand) : (conditional condition whenTrue whenFalse byRef demand).Hintless := by
  refine (Hintless.evaluate _ condition _).discard.bind fun _ => ?_
  split
  · exact (Hintless.evaluate _ whenTrue _).discard.bind fun _ =>
      (Hintless.evaluate _ whenFalse _).discard.bind fun _ => trivial
  · exact (Hintless.evaluate _ whenTrue _).bind fun _ =>
      (Hintless.evaluate _ whenFalse _).bind fun _ => trivial

private theorem arm_hintless (input : Scope) (demand : Demand) (i : Nat) (a : Arm) :
    (arm input demand i a).Hintless :=
  (pattern_hintless _ input demand a.pattern).bind fun _ =>
    (Hintless.evaluate? _ a.guard _).bind fun _ => .evaluate _ a.value _

private theorem valueAssignment_hintless (left right : Expr) (demand : Demand) :
    (valueAssignment left right demand).Hintless :=
  (Hintless.evaluate _ left _).bind fun _ => (Hintless.evaluate _ right _).bind fun _ => trivial

private theorem refAssignment_hintless (left right : Expr) (demand : Demand) :
    (refAssignment left right demand).Hintless := by
  refine (Hintless.evaluate _ left _).bind fun target => ?_
  refine (Hintless.evaluate _ right _).bind fun referent => ?_
  dsimp only
  split
  case' isFalse => split
  case' isFalse.isTrue =>
    refine (Hintless.evaluateQuietly _ left _).bind fun held => ?_
    refine (Hintless.evaluateQuietly _ right _).bind fun value => ?_
    refine (Hintless.reportIf _ _).bind fun _ => ?_
  -- What is left in each case is how the assignment answers.
  all_goals
    split
    · trivial
    · exact Hintless.evaluateQuietly [.right] right demand.forValue

/-- The rule for an expression that is no invocation passes no hint on. -/
theorem expr_hintless (setting : Setting) {e : Expr} (demand : Demand)
    (hi : ∀ receiver callee args inits, ¬ e.form.Invokes receiver callee args inits) :
    (expr setting e demand).Hintless := by
  obtain ⟨form, ty, span⟩ := e
  cases form with
  | call _ _ _ => exact absurd .call (hi _ _ _ _)
  | objectCreation _ _ _ => exact absurd .creation (hi _ _ _ _)
  | literal | defaultValue | typeToken | typeSize | discard => trivial
  | localVar var => exact localVar_hintless var span demand
  | param p => exact param_hintless setting.rules p span demand
  | thisRef => exact thisRef_hintless setting span demand
  | field receiver member => exact field_hintless setting.rules receiver member demand
  | arrayElement array indices =>
    refine (Hintless.evaluate _ array _).discard.bind fun _ => ?_
    exact (Hintless.evaluateAll _ indices _).discard.bind fun _ => trivial
  | arrayCreation id sizes elements =>
    refine (Hintless.evaluateAll _ sizes _).discard.bind fun _ => ?_
    exact (Hintless.evaluateAll _ elements _).discard.bind fun _ => trivial
  | delegateCreation receiver method =>
    exact (Hintless.evaluate? _ receiver _).bind fun _ => trivial
  | stackAlloc count elements =>
    refine (Hintless.evaluate _ count _).discard.bind fun _ => ?_
    exact (Hintless.evaluateAll _ elements _).discard.bind fun _ => stackValue_hintless _ _ demand
  | collection elements =>
    simp only [expr]
    split
    · exact (Hintless.evaluateAll _ elements _).discard.bind fun _ =>
        stackValue_hintless _ _ demand
    · exact (Hintless.evaluateAll _ elements _).discard.bind fun _ => trivial
  | conditional condition whenTrue whenFalse byRef =>
    exact conditional_hintless condition whenTrue whenFalse byRef demand
  | coalesce left right => exact joined_hintless left right demand
  | tuple elements => exact (Hintless.evaluateAll _ elements _).bind fun _ => trivial
  | conversion operand kind =>
    simp only [expr]
    split
    · exact .evaluate _ operand demand
    · exact (Hintless.evaluate _ operand _).discard.bind fun _ => trivial
  | unary operand =>
    simp only [expr]
    split
    · exact (Hintless.evaluate _ operand _).bind fun _ => trivial
    · exact (Hintless.evaluate _ operand _).discard.bind fun _ => trivial
  | binary left right =>
    simp only [expr]
    split
    · exact joined_hintless left right demand
    · exact readBoth_hintless left right demand
  | assignment left right byRef =>
    simp only [expr]
    split
    · exact refAssignment_hintless left right demand
    · exact valueAssignment_hintless left right demand
  | compoundAssignment left right => exact readBoth_hintless left right demand
  | outVar var =>
    intro found
    cases found with
    | none => exact (Hintless.declaring var _).bind fun _ => localVar_hintless var span demand
    | some lifetime => exact localVar_hintless var span demand
  | isPattern operand p =>
    refine (Hintless.evaluate _ operand _).bind fun input => ?_
    exact (pattern_hintless _ input demand p).bind fun _ => trivial
  | switch governing arms =>
    refine (Hintless.evaluate _ governing _).bind fun input => ?_
    exact (Hintless.forEach (arm_hintless input demand) arms 0).bind fun _ => trivial

private theorem stmts_hintless (route : Path) (body : List Stmt) (demand : Demand)
    (region : Region) : (stmts route body demand region).Hintless :=
  (Hintless.forEach (fun _ s => .perform _ s demand region) body 0).discard

private theorem declaration_hintless (route : Path) (d : Declaration) (demand : Demand) :
    (declaration route d demand).Hintless := by
  unfold declaration
  cases d.init with
  | none => exact .declaring d.var _
  | some init =>
    dsimp only
    split
    · refine (Hintless.evaluate route init _).bind fun _ => ?_
      exact (Hintless.evaluateQuietly route init _).bind fun _ => .declaring d.var _
    · exact (Hintless.evaluate route init _).bind fun _ => .declaring d.var _

private theorem switchSection_hintless (input : Scope) (inner : Demand) (i : Nat) (s : Section) :
    (switchSection input inner i s).Hintless := by
  refine (Hintless.forEach (fun _ p => pattern_hintless _ input inner p) s.labels 0).discard.bind
    fun _ => ?_
  exact (Hintless.evaluate? _ s.guard _).bind fun _ => stmts_hintless _ s.body inner .checked

private theorem handler_hintless (inner : Demand) (i : Nat) (c : Catch) :
    (handler inner i c).Hintless := by
  have hrest := (Hintless.evaluate? [.arm i, .guard] c.filter inner.forValue).bind
    fun _ => stmts_hintless [.arm i] c.body inner .checked
  unfold handler
  cases c.var with
  | none => exact hrest
  | some var => exact hrest

/-- No statement passes a hint on by itself. -/
theorem stmt_hintless (setting : Setting) (s : Stmt) (demand : Demand) :
    (stmt setting s demand).Hintless := by
  cases s with
  | block body => exact stmts_hintless [] body _ .checked
  | uncheckedBlock body => exact stmts_hintless [] body _ .unchecked
  | declare d => exact declaration_hintless _ d demand
  | eval value | yieldReturn value => exact (Hintless.evaluate _ value _).discard
  | ret value | throw value => exact .evaluate? _ value _
  | ite condition whenTrue whenFalse =>
    refine (Hintless.evaluate _ condition _).discard.bind fun _ => ?_
    refine (Hintless.perform _ whenTrue demand .checked).bind fun _ => ?_
    cases whenFalse with
    | none => trivial
    | some other => exact .perform _ other demand .checked
  | whileLoop condition body | doLoop condition body =>
    exact (Hintless.evaluate _ condition _).discard.bind fun _ => .perform _ body demand .checked
  | forLoop inits condition increments body =>
    refine (Hintless.forEach (fun _ s => .perform _ s _ .checked) inits 0).discard.bind fun _ => ?_
    refine (Hintless.evaluate? _ condition _).bind fun _ => ?_
    refine (Hintless.evaluateAll _ increments _).discard.bind fun _ => ?_
    exact .perform _ body _ .checked
  | foreach var collection body =>
    refine (Hintless.evaluate _ collection _).bind fun _ => ?_
    exact (Hintless.declaring var _).bind fun _ => .perform _ body _ .checked
  | «using» resources body =>
    refine (Hintless.forEach (fun _ d => declaration_hintless _ d _) resources 0).discard.bind
      fun _ => ?_
    exact .perform _ body _ .checked
  | switch governing sections =>
    refine (Hintless.evaluate _ governing _).bind fun input => ?_
    exact (Hintless.forEach (switchSection_hintless input _) sections 0).discard
  | tryCatch body catches cleanup =>
    refine (stmts_hintless _ body _ .checked).bind fun _ => ?_
    refine (Hintless.forEach (handler_hintless _) catches 0).discard.bind fun _ => ?_
    cases cleanup with
    | none => trivial
    | some final => exact stmts_hintless _ final _ .checked
  | «break» | «continue» | empty => trivial

end Rule

/-! ### First visits -/

namespace State

private theorem hints_of_findings {s t : State} (h : t.findings = s.findings) :
    t.journal.hints = s.journal.hints := congrArg Prod.snd h

private theorem hints_report (s : State) (mood : Mood) (diagnostic : Diagnostic) :
    (s.tell mood (.reported diagnostic)).journal.hints = s.journal.hints := by
  unfold tell
  split
  · rfl
  · simp [note, Journal.hints_push, Event.hint?]

end State

namespace Walker

variable {w : Walker} {levels : Nat} {mood : Mood} {path : Path}

/-- The first visit of a node hints at the arrays in it that are fit for the stack, if it is aloud
and ends well. -/
def HintsAtArrays (w : Walker) (levels : Nat) : Prop :=
  ∀ mood path node demand s scope t, mood.quiet = false → s.Fresh path →
    w.visit levels mood path node demand s = .ok scope t →
    t.journal.hints = s.journal.hints ++ node.stackArrays

/-- A plan without hints of its own, if it is carried out to the end, leaves those of the parts on
its tour, each once. -/
theorem HintsAtArrays.run {α : Type} (hw : w.HintsAtArrays levels) (hq : mood.quiet = false)
    {whole : Demand} {hazard : Prop} {Q : α → Prop} {seen : List Answer} {todo : List Stop}
    {p : Plan α} (ht : p.Tours whole hazard Q seen todo) (hp : p.Hintless) {s t : State} {a : α}
    (hs : s.Ahead path seen todo) (h : w.carryOut levels mood path p s = .ok a t) :
    t.journal.hints = s.journal.hints ++ Stop.stackArrays todo := by
  unfold carryOut at h
  induction ht generalizing s with
  | done _ =>
    cases h
    simp
  | fail _ => cases h
  | @first seen todo part demand inner next ho _ _ ih =>
    rw [Plan.run_visit, Ending.andThen_eq_ok] at h
    obtain ⟨scope, s₁, hv, h⟩ := h
    have hloud : (inner.within mood).quiet = false := by simp [Mood.within, ho.1, hq]
    have hfirst := hw _ _ _ _ _ _ _ hloud hs.head hv
    rw [ih scope (hp scope) (hs.first (x := ⟨part, demand, scope⟩) (w.sameOutside_of_visit hv)) h,
      hfirst, Stop.stackArrays_cons_part, List.append_assoc]
  | @again seen todo part demand inner next hquiet hx _ _ _ ih =>
    obtain ⟨x, hx, rfl⟩ := hx
    rw [Plan.run_visit, Ending.andThen_eq_ok] at h
    obtain ⟨scope, s₁, hv, h⟩ := h
    -- Later visits are quiet, whether they compute anything or not.
    have hmuted : (inner.within mood).quiet = true := by simp [Mood.within, hquiet]
    have hsilent := w.visit_silent levels hmuted (path ++ x.part.route) x.part.node demand s
    rw [hv] at hsilent
    have hsame : s₁.journal.hints = s.journal.hints := State.hints_of_findings hsilent
    rw [ih scope (hp scope) (hs.again hx (w.sameOutside_of_visit hv)) h, hsame]
  | @declare seen todo var lifetime next _ _ ih =>
    rw [ih hp (s := s.declare var lifetime) (hs.site.of_memo rfl) h,
      State.hints_of_findings (s.findings_declare var lifetime), Stop.stackArrays_cons_site]
  | @designate seen todo var lifetime next hn _ ih =>
    rw [Plan.run_lookup] at h
    rw [Stop.stackArrays_cons_site]
    cases hl : s.lifetimes.get? var.id with
    | none =>
      have hp := hp none
      rw [hn] at hp
      rw [hl, hn] at h
      rw [ih lifetime hp (s := s.declare var lifetime) (hs.site.of_memo rfl) h,
        State.hints_of_findings (s.findings_declare var lifetime)]
    | some found =>
      rw [hl] at h
      exact ih found (hp (some found)) hs.site h
  | @lookup seen todo id cause next _ hn _ ih =>
    rw [Plan.run_lookup] at h
    cases hl : s.lifetimes.get? id with
    | none =>
      rw [hl, hn] at h
      cases h
    | some found =>
      rw [hl] at h
      exact ih found (hp (some found)) hs h
  | @report seen todo finding next _ ih =>
    rw [ih hp (hs.of_memo (s.memo_tell mood _)) h, State.hints_report]
  | hint _ _ => exact hp.elim

end Walker

/-! ### Call sites -/

/-- What is known of each result is known of all of them, in order. -/
theorem Plan.forEach_map {α β γ : Type} {visit : Visitor} {mood : Mood} {f : Nat → α → Plan β}
    {view : β → γ} {expected : Nat → α → γ}
    (hf : ∀ i a b s t, (f i a).run visit mood s = .ok b t → view b = expected i a)
    {items : List α} {start : Nat} {results : List β} {s t : State}
    (h : (Plan.forEach f items start).run visit mood s = .ok results t) :
    results.map view = (items.zipIdx start).map fun item => expected item.2 item.1 := by
  induction items generalizing start s results with
  | nil =>
    cases h
    rfl
  | cons first rest ih =>
    rw [Plan.forEach, run_bind_eq_ok] at h
    obtain ⟨result, s₁, hfirst, h⟩ := h
    rw [run_bind_eq_ok] at h
    obtain ⟨results, s₂, hrest, h⟩ := h
    cases h
    rw [List.map_cons, List.zipIdx_cons, List.map_cons, ih hrest, hf start first result s s₁ hfirst]

/-- The parameter that an argument is bound to, and the argument as it is written. -/
def Actual.binding (a : Actual) : Option Param × Expr := (a.param, a.expr)

/-- Inference changes no binding. -/
theorem Invocation.bindings_infer (scope : Scope) (given : List Actual) :
    (infer scope given).map Actual.binding = given.map Actual.binding := by
  rw [infer, List.map_map]
  refine List.map_congr_left fun a _ => ?_
  dsimp only [Function.comp_apply]
  split <;> rfl

namespace Rule

variable {visit : Visitor} {mood : Mood} {s t : State}

private theorem reportAll_hints {findings : List Finding}
    (h : (reportAll findings).run visit mood s = .ok () t) : t.journal.hints = s.journal.hints := by
  induction findings generalizing s with
  | nil =>
    cases h
    rfl
  | cons finding rest ih => exact (ih h).trans (s.hints_report mood _)

private theorem hintAll_hints (hq : mood.quiet = false) {ids : List Nat}
    (h : (hintAll ids).run visit mood s = .ok () t) : t.journal.hints = s.journal.hints ++ ids := by
  induction ids generalizing s with
  | nil =>
    cases h
    simp
  | cons id rest ih =>
    change (Plan.hint _ _).run visit mood s = .ok () t at h
    rw [Plan.run_hint] at h
    rw [ih h]
    simp [State.tell, hq, State.note, Journal.hints_push, Event.hint?]

/-- A call site hints at the arrays among its arguments, in their order. -/
theorem callSite_hints (hq : mood.quiet = false) {rules : Rules} {callee : Method}
    {demand : Demand} {given bound : List Actual}
    (h : (callSite rules callee demand given).run visit mood s = .ok bound t) :
    t.journal.hints = s.journal.hints ++
      (given.map Actual.binding).filterMap fun binding => binding.2.stackArray? binding.1 := by
  obtain ⟨rfl, s₁, s₂, s₃, hdeclared, hmixed, hleaked, hhinted⟩ := callSite_cases h
  rw [hintAll_hints hq hhinted, reportAll_hints hleaked, reportAll_hints hmixed,
    State.hints_of_findings (declareOutVars_findings hdeclared),
    ← Invocation.bindings_infer (Invocation.inferredScope demand.block _) given, List.filterMap_map]
  rfl

private theorem actual_binding {route : Path} {e : Expr} {p : Option Param} {passing : Passing}
    {demand : Demand} {a : Actual}
    (h : (actual route e p passing demand).run visit mood s = .ok a t) : a.binding = (p, e) := by
  unfold actual at h
  split at h
  · cases h
    rfl
  · split at h
    · rw [Plan.run_bind_eq_ok] at h
      obtain ⟨ref, s₁, -, h⟩ := h
      rw [Plan.run_bind_eq_ok] at h
      obtain ⟨value, s₂, -, h⟩ := h
      cases h
      rfl
    · rw [Plan.run_bind_eq_ok] at h
      obtain ⟨value, s₁, -, h⟩ := h
      cases h
      rfl

private theorem actuals_bindings {callee : Method} {args : List Argument} {demand : Demand}
    {given : List Actual} (h : (actuals callee args demand).run visit mood s = .ok given t) :
    given.map Actual.binding =
      args.zipIdx.map fun arg => (callee.params[arg.2]?, arg.1.value) :=
  Plan.forEach_map (fun _ _ _ _ _ ha => actual_binding ha) h

/-- Evaluated arguments are bound as they are written. -/
theorem evaluated_bindings {callee : Method} {receiver : Option Expr} {args : List Argument}
    {demand : Demand} {given : List Actual}
    (h : (evaluated callee receiver args demand).run visit mood s = .ok given t) :
    given.map Actual.binding = callee.bindings receiver args := by
  unfold evaluated at h
  rw [Plan.run_bind_eq_ok] at h
  obtain ⟨own, s₁, hown, h⟩ := h
  rw [Plan.run_bind_eq_ok] at h
  obtain ⟨rest, s₂, hrest, h⟩ := h
  cases h
  rw [List.map_append, Method.bindings, actuals_bindings hrest]
  congr 1
  cases receiver with
  | none =>
    cases hown
    rfl
  | some e =>
    unfold receiverActual at hown
    rw [Plan.run_bind_eq_ok] at hown
    obtain ⟨a, s₃, ha, hown⟩ := hown
    cases hown
    rw [List.map_singleton, actual_binding ha]
    rfl

end Rule

/-! ### Nodes -/

namespace Walker

variable {w : Walker} {levels : Nat} {mood : Mood} {path : Path} {demand : Demand} {s t : State}
  {scope : Scope}

private theorem concluded_hints {e : Expr} {callee : Method} {bound : List Actual}
    {captured : List Scope} (h : w.carryOut levels mood path
      (Rule.concluded w.setting.rules e callee demand bound captured) s = .ok scope t) :
    t.journal.hints = s.journal.hints := by
  unfold Rule.concluded Plan.settle Plan.reportIf at h
  split at h
  · dsimp only at h
    split at h
    · cases h
      exact s.hints_report mood _
    · cases h
      rfl
  · cases h
    rfl

/-- Nothing is remembered of the values of fields when their turn comes. -/
theorem Prepares.ahead {form : Form} {receiver : Option Expr} {callee : Method}
    {args : List Argument} {inits : List FieldInit} {given : List Actual} {s₁ s₂ s₃ : State}
    {captured : List Scope} (hform : form.Invokes receiver callee args inits)
    (h : w.Prepares levels mood path receiver callee args inits demand s given s₁ s₂ captured s₃)
    (hs : s.Fresh path) : s₂.Ahead path [] (Stop.inits inits) := by
  have hapart : (Stop.inits inits).Pairwise Stop.Apart :=
    (Stop.pairwise_forEach_single (c := []) (g := .init) (by simp) (fun _ _ => ⟨[], rfl⟩) inits 0).1
  refine ⟨hapart, fun _ hx => (by cases hx), ?_⟩
  cases hform with
  | call => exact fun _ hp => by cases hp
  | creation =>
    have hall : Stop.All (fun p => s₂.Fresh (path ++ p.route)) (Stop.inits inits) :=
      Stop.all_forEach (fun j init =>
        Stop.all_part (w.creation_fields_fresh h.evaluates h.checks hs j)) inits 0
    exact hall

/-- An invocation hints at the arrays in its receiver and its arguments, then at those among them,
and last at those in the values of fields. -/
theorem HintsAtArrays.invocation (hw : w.HintsAtArrays levels) (hq : mood.quiet = false) {e : Expr}
    {receiver : Option Expr} {callee : Method} {args : List Argument} {inits : List FieldInit}
    (hform : e.form.Invokes receiver callee args inits) (hs : s.Fresh path)
    (h : w.carryOut levels mood path (Rule.expr w.setting e demand) s = .ok scope t) :
    t.journal.hints = s.journal.hints ++ e.stackArrays := by
  obtain ⟨given, s₁, s₂, captured, s₃, hp, hrun⟩ := w.invocation_cases hform h
  have hapart : (Stop.actuals receiver args).Pairwise Stop.Apart := by
    have hwhole := (Stop.invocation_apart receiver args).1
    rw [Stop.invocation, ← List.append_assoc] at hwhole
    exact (List.pairwise_append.mp hwhole).1
  have hfields : Plan.Tours demand True (fun _ => True) [] (Stop.inits inits)
      (Plan.forEach (fun i init => Rule.fieldInit w.setting.rules i init demand) inits) :=
    .forEach (fun i init => Rule.fieldInit_tours w.setting.rules i init) inits 0
  have hread := hw.run hq hfields
    (.forEach (fun i init => Rule.fieldInit_hintless w.setting.rules i init demand) inits 0)
    (hp.ahead hform hs) hp.reads
  have hargs := hw.run hq (Rule.evaluated_tours callee receiver args demand)
    (Rule.evaluated_hintless callee receiver args demand) (.start hapart hs) hp.evaluates
  calc t.journal.hints
      = s₃.journal.hints := concluded_hints hrun
    _ = s₂.journal.hints ++ Stop.stackArrays (Stop.inits inits) := hread
    _ = s₁.journal.hints ++ callee.stackArrays receiver args ++
          Stop.stackArrays (Stop.inits inits) := by
      rw [Rule.callSite_hints hq hp.checks, Rule.evaluated_bindings hp.evaluates,
        Method.stackArrays]
    _ = s.journal.hints ++ e.stackArrays := by
      rw [hargs, hform.stackArrays_eq]
      simp only [List.append_assoc]

/-- What the rule for a node hints at are the arrays in the node. -/
theorem HintsAtArrays.node (hw : w.HintsAtArrays levels) (hq : mood.quiet = false) {node : Node}
    (hs : s.Fresh path)
    (h : w.carryOut levels mood path (Rule.node w.setting node demand) s = .ok scope t) :
    t.journal.hints = s.journal.hints ++ node.stackArrays := by
  have hrun (hp : (Rule.node w.setting node demand).Hintless) :=
    hw.run hq (Rule.node_tours w.setting node demand) hp
      (.start (node.stops_apart w.setting) hs) h
  cases node with
  | stmt st =>
    rw [hrun ((Rule.stmt_hintless w.setting st demand).bind fun _ => trivial)]
    exact congrArg _ (st.stackArrays_eq w.setting).symm
  | expr e =>
    by_cases hi : ∃ receiver callee args inits, e.form.Invokes receiver callee args inits
    · obtain ⟨receiver, callee, args, inits, hform⟩ := hi
      exact hw.invocation hq hform hs h
    · have hi (receiver : Option Expr) (callee : Method) (args : List Argument)
          (inits : List FieldInit) : ¬ e.form.Invokes receiver callee args inits :=
        fun hform => hi ⟨receiver, callee, args, inits, hform⟩
      rw [hrun (Rule.expr_hintless w.setting demand hi)]
      exact congrArg _ (Expr.stackArrays_eq w.setting hi).symm

/-- It is enough to look at computed answers: on the first visit nothing is remembered. -/
theorem HintsAtArrays.of_compute
    (h : ∀ mood path node demand s scope t, mood.quiet = false → s.Fresh path →
      w.compute levels mood path node demand s = .ok scope t →
      t.journal.hints = s.journal.hints ++ node.stackArrays) : w.HintsAtArrays levels := by
  intro mood path node demand s scope t hq hs hv
  cases node with
  | stmt st =>
    rw [visit_stmt] at hv
    exact h _ _ _ _ _ _ _ hq hs hv
  | expr e =>
    rw [visit_computed w (w.remembered_fresh hs demand mood.quiet), Ending.andThen_eq_ok] at hv
    obtain ⟨found, u, hc, hu⟩ := hv
    cases hu
    have hfresh : (s.note (.visited path demand mood.quiet false)).Fresh path := hs.of_memo rfl
    have hnoted := h _ _ _ _ _ _ _ hq hfresh hc
    rw [State.note, Journal.hints_push] at hnoted
    exact hnoted.trans (by simp [Event.hint?])

private theorem hintsAtArrays (w : Walker) (levels : Nat) : w.HintsAtArrays levels := by
  induction levels with
  | zero => exact .of_compute fun _ _ _ _ _ _ _ _ _ h => by cases h
  | succ levels ih => exact .of_compute fun _ _ _ _ _ _ _ hq hs h => ih.node hq hs h

private theorem initial_hints (w : Walker) : w.initial.journal.hints = [] := by
  refine w.initial_induction (P := fun s => s.journal.hints = []) rfl fun d _ s hs => ?_
  rw [State.note, Journal.hints_push, hs]
  rfl

end Walker

/-- An analysis that ends well hints at exactly the arrays that the syntax shows to be fit for the
stack: those that are created in the place of an argument or a receiver whose parameter collects
arguments and keeps them to the callee. They come in the order of the walk, a call or an object
creation after its receiver and its arguments, and each comes once, however often the expressions
around it are evaluated. -/
theorem analyze_hints_at_stack_arrays {body : Body} {options : Options} {outcome : Outcome}
    (h : (analyze body options).result = .ok outcome) : outcome.hints = body.stackArrays := by
  let w : Walker := { setting := ⟨options.rules, body.method⟩, limit := options.maxDepth }
  change (w.analyze body.stmts).result = .ok outcome at h
  unfold Walker.analyze EStateM.run at h
  cases hw : w.walkBody body.stmts w.initial with
  | error failure s =>
    rw [hw] at h
    cases h
  | ok a s =>
    rw [hw] at h
    cases h
    have hhints := (w.hintsAtArrays w.limit).run rfl (Rule.body_tours body.stmts)
      (Rule.stmts_hintless [] body.stmts .methodBody .checked)
      (.start (Stop.body_apart body.stmts) (w.initial_fresh [])) hw
    rw [w.initial_hints, List.nil_append, ← body.stackArrays_eq] at hhints
    exact hhints

/-- A call is passed by reference and so evaluated twice, and an array has a call among its elements
and stands before the value of a field. -/
theorem analyze_hints_at_stack_arrays_nested :
    let values : Param :=
      { name := "values", ty := .array .int, nonEscaping := true, isParams := true,
        span := default }
    let x : Param := { name := "x", ty := .int, passing := .byIn, span := default }
    let sum : Method := { name := "sum", params := [values], returnTy := .int, span := default }
    let log : Method := { name := "log", params := [x, values], returnTy := .void, span := default }
    let box : Method := { name := "box", params := [values], returnTy := .void, span := default }
    let total : Field := { name := "total", ty := .int, container := .heap "Box" }
    let array (id : Nat) (elements : List Expr) : Argument :=
      ⟨⟨.arrayCreation id [] elements, .array .int, default⟩, .byValue⟩
    let summed (id : Nat) : Expr := ⟨.call none sum [array id []], .int, default⟩
    let logged : Expr := ⟨.call none log [⟨summed 1, .byIn⟩, array 2 []], .void, default⟩
    let created : Expr :=
      ⟨.objectCreation box [array 4 [summed 3]] [⟨total, summed 5⟩], .heap "Box", default⟩
    let f : Method := { name := "f", returnTy := .void, span := default }
    ∃ outcome, (analyze ⟨f, [.eval logged, .eval created]⟩ {}).result = .ok outcome ∧
      outcome.hints = [1, 2, 3, 4, 5] := by
  intro values x sum log box total array summed logged created f
  obtain ⟨outcome, h⟩ : ∃ outcome,
      (analyze ⟨f, [.eval logged, .eval created]⟩ {}).result = .ok outcome := ⟨_, rfl⟩
  have harrays : Body.stackArrays ⟨f, [.eval logged, .eval created]⟩ = [1, 2, 3, 4, 5] := rfl
  exact ⟨outcome, h, (analyze_hints_at_stack_arrays h).trans harrays⟩

end RefLifetime
