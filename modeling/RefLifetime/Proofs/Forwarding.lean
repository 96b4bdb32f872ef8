import RefLifetime.Proofs.Independence
import RefLifetime.Proofs.Introduced
import RefLifetime.Proofs.Memory
import RefLifetime.Proofs.Reading

/-!
# References that are passed on

A method that takes a reference and returns one may return the reference it was given. Calls of such
methods can stand one around another, and each of them asks for the location and for the value of
what it is given. The whole chain refers into the method, as the local at its core does, and nothing
is reported inside it (`Walker.Refers.chain`). So a method that returns the chain is reported once,
at the outermost call (`analyze_reports_forwarding_once`).
-/

namespace RefLifetime

/-- The scope of something that nothing confines, or that is confined to the method. -/
def Scope.IsOuter (scope : Scope) : Prop := scope = .callingMethod ∨ scope = .currentMethod

private theorem Scope.IsOuter.narrowerThan_eq {scope : Scope} (h : scope.IsOuter) :
    scope.narrowerThan .currentMethod = false := by
  rcases h with rfl | rfl <;> rfl

/-- A method that takes one reference to a plain value and returns a reference, and the type and the
place of a call of it. -/
structure Forwarder where
  callee : Method
  param : Param
  ty : Ty
  span : Span
  params_eq : callee.params = [param]
  returnsByRef : callee.returnsByRef = true
  passing_eq : param.passing = .byRef
  modifier_eq : param.modifier = .unscoped
  not_implicitlyScoped : param.isImplicitlyScoped = false
  shape_eq : param.ty.shape = .value

namespace Forwarder

/-- A call that is given a reference to what `operand` denotes. -/
def call (f : Forwarder) (operand : Expr) : Expr :=
  ⟨.call none f.callee [⟨operand, .byRef⟩], f.ty, f.span⟩

/-- Calls one around another, the outermost first. -/
def chain (fs : List Forwarder) (operand : Expr) : Expr := fs.foldr call operand

/-- The argument of such a call once its scopes are known. -/
def actual (f : Forwarder) (operand : Expr) (value ref : Scope) : Actual :=
  ⟨operand, some f.param, .byRef, none, value, some ref⟩

/-- What becomes of the result once the scopes of the argument are known. -/
def conclude (f : Forwarder) (rules : Rules) (demand : Demand) (a : Actual) : Plan Scope :=
  if demand.isRef || f.ty.isRefLike then
    let (scope, culprit) := Invocation.escape rules f.ty demand [a]
    let names := [f.callee.name, Invocation.culpritName [a] culprit]
    Plan.settle demand scope ⟨.ofCallResult demand.isRef, f.span, names⟩
  else return demand.rvalue .callingMethod

variable (f : Forwarder) (rules : Rules) {operand : Expr}

private theorem isRefLike_param : f.param.ty.isRefLike = false := by simp [Ty.isRefLike, f.shape_eq]

private theorem mayCaptureRef_param : f.param.mayCaptureRef rules = true := by
  simp [Param.mayCaptureRef, f.passing_eq, f.modifier_eq, f.not_implicitlyScoped, Passing.isByRef]

/-- Such a call declares, mixes and leaks nothing, and has nothing put on the stack. -/
theorem callSite_eq (demand : Demand) (value ref : Scope)
    (harray : ∀ id sizes elements, operand.form ≠ .arrayCreation id sizes elements) :
    Rule.callSite rules f.callee demand [f.actual operand value ref] =
      return [f.actual operand value ref] := by
  have hinfer (scope : Scope) : Invocation.infer scope [f.actual operand value ref] =
      [f.actual operand value ref] := rfl
  have hmixable : (f.actual operand value ref).mixableParam? rules = none := by
    simp [Actual.mixableParam?, actual, f.isRefLike_param]
  have hmixing (brought : List Contribution) : Invocation.mixingFindings rules f.callee brought
      [f.actual operand value ref] = [] := by
    simp [Invocation.mixingFindings, Invocation.mixed, Invocation.mixedInto, hmixable,
      Invocation.distinct]
  have hleak : Invocation.leakFinding? f.callee (f.actual operand value ref) = none := by
    simp [Invocation.leakFinding?, actual, Passing.isByRef]
  have hstack : Invocation.stackArray? (f.actual operand value ref) = none := by
    unfold Invocation.stackArray?
    split
    · next h => exact absurd h (harray _ _ _)
    · rfl
  simp only [Rule.callSite, hinfer, hmixing, List.filterMap_cons, hleak, hstack,
    List.filterMap_nil]
  rfl

private theorem rule_eq (setting : Setting) (demand : Demand)
    (hout : ∀ var, operand.form ≠ .outVar var)
    (harray : ∀ id sizes elements, operand.form ≠ .arrayCreation id sizes elements) :
    Rule.expr setting (f.call operand) demand = (do
      let ref ← Plan.evaluate [.argument 0] operand demand.forRef
      let value ← Plan.evaluateQuietly [.argument 0] operand demand.forValue
      f.conclude setting.rules demand (f.actual operand value ref)) := by
  have hactual : Rule.actual [.argument 0] operand f.callee.params[0]? .byRef demand = (do
      let ref ← Plan.evaluate [.argument 0] operand demand.forRef
      let value ← Plan.evaluateQuietly [.argument 0] operand demand.forValue
      return f.actual operand value ref) := by
    rw [f.params_eq]
    unfold Rule.actual
    split
    · next h => exact absurd h (hout _)
    · rfl
  have hactuals : Rule.actuals f.callee [⟨operand, .byRef⟩] demand = (do
      let a ← Rule.actual [.argument 0] operand f.callee.params[0]? .byRef demand
      return [a]) := rfl
  have hcarries : (if demand.isRef then true else f.ty.isRefLike) =
      (demand.isRef || f.ty.isRefLike) := by
    cases demand.isRef <;> rfl
  change Rule.call setting.rules (f.call operand) none f.callee [⟨operand, .byRef⟩] demand = _
  simp only [Rule.call, Rule.receiverActual, hactuals, hactual, bind_assoc, pure_bind,
    List.nil_append, f.callSite_eq _ _ _ _ harray, f.returnsByRef, conclude, ← hcarries]
  rfl

/-- The location that is passed on limits the location that is returned. -/
theorem conclude_ref {value : Scope} (hv : value.IsOuter)
    (target : Scope) :
    f.conclude rules ⟨.currentMethod, .ref, target⟩ (f.actual operand value .currentMethod) =
      Plan.settle ⟨.currentMethod, .ref, target⟩ .currentMethod
        ⟨.escapeCallMember, f.span, [f.callee.name, f.param.name]⟩ := by
  have hflows : (f.actual operand value .currentMethod).flows? rules true =
      some [value, .currentMethod] := by
    simp [Actual.flows?, actual, f.modifier_eq, f.mayCaptureRef_param]
  have hescape : Invocation.escape rules f.ty ⟨.currentMethod, .ref, target⟩
      [f.actual operand value .currentMethod] = (.currentMethod, some 0) := by
    change Invocation.escapeFrom .currentMethod 0 (.callingMethod, none)
      [(f.actual operand value .currentMethod).flows? rules true] = _
    rw [hflows]
    rcases hv with rfl | rfl <;> rfl
  unfold conclude
  rw [hescape]
  rfl

/-- What is returned by value stays in the method or may be carried anywhere. -/
theorem escape_of_value (operand : Expr) {value : Scope} (hv : value.IsOuter) (demand : Demand) :
    (Invocation.escape rules f.ty demand [f.actual operand value .currentMethod]).1.IsOuter := by
  refine Invocation.escapeFrom_of (S := Scope.IsOuter) _ _ (.inl rfl) ?_
  intro scopes hscopes scope hscope
  simp only [List.map_cons, List.map_nil, List.mem_singleton, Actual.flows?, actual,
    Option.map_some, Option.some.injEq] at hscopes
  rw [hscopes, List.mem_append] at hscope
  rcases hscope with h | h
  · split at h
    · exact List.mem_singleton.mp h ▸ hv
    · cases h
  · split at h
    · exact .inr (List.mem_singleton.mp h)
    · cases h

end Forwarder

namespace Walker

/-- The expression denotes a location in the method body, and inside the body neither the location
nor its value is complained about. -/
structure Refers (w : Walker) (levels : Nat) (recorded : Lifetimes) (e : Expr) : Prop where
  location : ∀ mood, w.Reads levels mood recorded e ⟨.currentMethod, .ref, .currentMethod⟩
    .currentMethod []
  value : ∀ mood, ∃ value : Scope, value.IsOuter ∧
    w.Reads levels mood recorded e ⟨.currentMethod, .value, .currentMethod⟩ value []
  not_outVar : ∀ var, e.form ≠ .outVar var
  not_array : ∀ id sizes elements, e.form ≠ .arrayCreation id sizes elements

variable {w : Walker} {levels : Nat} {recorded : Lifetimes} {operand : Expr}

private theorem refers_localVar {x : Local} {value : Scope}
    (hx : recorded.get? x.id = some ⟨.currentMethod, value⟩)
    (hv : value.IsOuter) (ty : Ty) (span : Span) :
    w.Refers (levels + 1) recorded ⟨.localVar x, ty, span⟩ where
  location mood := by
    refine .of_rule fun path => ⟨∅, .lookup ?_⟩
    rw [hx]
    exact .settle_of_convertible rfl _
  value mood := by
    refine ⟨value, hv, .of_rule fun path => ⟨∅, .lookup ?_⟩⟩
    rw [hx]
    exact .settle_of_convertible hv.narrowerThan_eq _
  not_outVar := by simp
  not_array := by simp

namespace Refers

/-- A call is given the location and the value of its operand. -/
theorem reads_call (hw : w.memoizes = false) (h : w.Refers levels recorded operand)
    (f : Forwarder) (mood : Mood) (mode : Mode) (target : Scope) :
    ∃ value : Scope, value.IsOuter ∧ ∀ scope ds,
      (∀ path, w.Yields levels mood path recorded ∅ (f.conclude w.setting.rules
        ⟨.currentMethod, mode, target⟩ (f.actual operand value .currentMethod)) scope ds) →
      w.Reads (levels + 1) mood recorded (f.call operand) ⟨.currentMethod, mode, target⟩ scope
        ds := by
  obtain ⟨value, hv, hvalue⟩ := h.value mood.hushed
  refine ⟨value, hv, fun scope ds hconclude => .of_rule fun path => ?_⟩
  rw [f.rule_eq w.setting _ h.not_outVar h.not_array]
  have hempty (B : Set Step) : ∀ step ∈ (∅ : Set Step), step ∉ B := by simp
  -- The operand is looked into twice, which is no matter as nothing is remembered.
  exact ⟨_, Yields.skip (.of_forgetful hw (.evaluate (h.location mood) (.argument 0) []))
    (Yields.skip (.of_forgetful hw (.evaluateQuietly hvalue (.argument 0) [])) (hconclude path)
      (hempty _)) (hempty _)⟩

/-- What is given to a call of a forwarder stays in the method, and so does what it returns. -/
theorem call (hw : w.memoizes = false) (h : w.Refers levels recorded operand) (f : Forwarder) :
    w.Refers (levels + 1) recorded (f.call operand) where
  location mood := by
    obtain ⟨value, hv, hreads⟩ := h.reads_call hw f mood .ref .currentMethod
    refine hreads _ _ fun path => ?_
    rw [f.conclude_ref _ hv]
    exact .settle_of_convertible rfl _
  value mood := by
    obtain ⟨value, hv, hreads⟩ := h.reads_call hw f mood .value .currentMethod
    cases hty : f.ty.isRefLike with
    | false =>
      refine ⟨.callingMethod, .inl rfl, hreads _ _ fun path => ?_⟩
      simp only [Forwarder.conclude, hty]
      exact .pure _
    | true =>
      have hscope := f.escape_of_value w.setting.rules operand hv
        ⟨.currentMethod, .value, .currentMethod⟩
      refine ⟨_, hscope, hreads _ _ fun path => ?_⟩
      simp only [Forwarder.conclude, hty]
      exact .settle_of_convertible hscope.narrowerThan_eq _
  not_outVar := by simp [Forwarder.call]
  not_array := by simp [Forwarder.call]

private theorem chain (hw : w.memoizes = false) (fs : List Forwarder)
    (h : w.Refers levels recorded operand) :
    w.Refers (levels + fs.length) recorded (Forwarder.chain fs operand) := by
  induction fs with
  | nil => exact h
  | cons f rest ih => exact ih.call hw f

/-- What the outermost call of a returned reference is given stays in the method. -/
theorem reads_returned (hw : w.memoizes = false) (h : w.Refers levels recorded operand)
    (f : Forwarder) {mood : Mood} (hq : mood.quiet = false) :
    w.Reads (levels + 1) mood recorded (f.call operand)
      ⟨.currentMethod, .ref, w.setting.rules.returnScope⟩ .currentMethod
      [Finding.inRegion ⟨.escapeCallMember, f.span, [f.callee.name, f.param.name]⟩
        mood.region] := by
  obtain ⟨value, hv, hreads⟩ := h.reads_call hw f mood .ref w.setting.rules.returnScope
  refine hreads _ _ fun path => ?_
  rw [f.conclude_ref _ hv]
  have hshort : Scope.currentMethod.narrowerThan w.setting.rules.returnScope = true := by
    cases w.setting.rules <;> rfl
  exact .settle_of_narrower hq hshort _

end Refers

/-- A returned reference is read for its location. -/
theorem Reads.returned {e : Expr} {mood : Mood} {scope : Scope} {ds : List Diagnostic}
    (hr : w.setting.method.returnsByRef = true) (demand : Demand)
    (h : w.Reads levels mood recorded e (demand.requiring .ref w.setting.rules.returnScope) scope
      ds) {path : Path} {s : State} (hs : w.Unaware path s) (hl : s.lifetimes = recorded) :
    ∃ t, w.visit (levels + 1) mood path (.stmt (.ret (some e))) demand s = .ok .unused t ∧
      s.Adds ds t := by
  have hrule : Rule.node w.setting (.stmt (.ret (some e))) demand = (do
      let _ ← Plan.evaluate [.operand] e (demand.requiring .ref w.setting.rules.returnScope)
      return .unused) := by
    simp only [Rule.node, Rule.stmt, Plan.evaluate?, hr]
    rfl
  have hyields : w.Yields levels mood path recorded {.operand}
      (Rule.node w.setting (.stmt (.ret (some e))) demand) .unused ds := by
    rw [hrule]
    exact Yields.map (.evaluate h .operand []) rfl
  obtain ⟨t, ht, hadds, -⟩ := hyields s hl fun step _ => hs.part [step]
  rw [visit_stmt, compute_succ]
  exact ⟨t, ht, hadds⟩

/-- A body of two statements is walked by walking one after the other. -/
theorem walkBody_pair {first second : Stmt} {a b : Scope} {s t u : State}
    (hfirst : w.visit w.limit { region := .ofUnsafe w.setting.method.isUnsafe } [.stmt 0]
      (.stmt first) .methodBody s = .ok a t)
    (hsecond : w.visit w.limit { region := .ofUnsafe w.setting.method.isUnsafe } [.stmt 1]
      (.stmt second) .methodBody t = .ok b u) :
    w.walkBody [first, second] s = .ok () u := by
  have hplan : Rule.stmts [] [first, second] .methodBody =
      .visit [.stmt 0] (.stmt first) .methodBody {} fun _ =>
        .visit [.stmt 1] (.stmt second) .methodBody {} fun _ => .done () := rfl
  rw [walkBody, hplan, Plan.run_visit, Mood.within_default]
  refine Ending.andThen_eq_ok.mpr ⟨a, t, hfirst, ?_⟩
  rw [Plan.run_visit, Mood.within_default]
  exact Ending.andThen_eq_ok.mpr ⟨b, u, hsecond, rfl⟩

/-- A local that is declared with a literal, or with no value, has a location of its own. -/
theorem declare_plain {x : Local} (hx : x.passing = .byValue) {init : Option Expr}
    (hinit : ∀ e ∈ init, e.form = .literal) (mood : Mood) (demand : Demand) {path : Path}
    {s : State}
    (hs : w.Unaware path s) :
    ∃ t, w.visit (levels + 2) mood path (.stmt (.declare ⟨x, init⟩)) demand s = .ok .unused t ∧
      t.lifetimes = s.lifetimes.insert x.id
        (Rule.pinned x.modifier demand.block ⟨demand.block, .callingMethod⟩) ∧
      t.journal.diagnostics.toList = s.journal.diagnostics.toList := by
  have hdeclared (t : State) (lifetime : Lifetime) :
      (t.declare x lifetime).journal.diagnostics.toList = t.journal.diagnostics.toList :=
    congrArg Prod.fst (t.findings_declare x lifetime)
  cases init with
  | none =>
    rw [visit_stmt, compute_succ]
    exact ⟨_, rfl, rfl, hdeclared s _⟩
  | some literal =>
    obtain ⟨t, ht, hadds⟩ : ∃ t, w.visit (levels + 1) mood (path ++ [.init 0]) (.expr literal)
        demand.forValue s = .ok .callingMethod t ∧ s.Adds [] t :=
      literal_reads (hinit literal rfl) _ _ s (hs.part _) rfl
    refine ⟨_, w.declaration_of_value (by simp [hx, Passing.isByRef]) ht, ?_, ?_⟩
    · rw [← hadds.lifetimes]
      rfl
    · rw [hdeclared, hadds.diagnostics, List.append_nil]

/-- A local that is declared with a literal in the method body has its own location there. -/
theorem declare_literal {x : Local} (hx : x.passing = .byValue) {literal : Expr}
    (hliteral : literal.form = .literal) (mood : Mood) {path : Path} {s : State}
    (hs : w.Unaware path s) :
    ∃ t value, w.visit (levels + 2) mood path (.stmt (.declare ⟨x, some literal⟩)) .methodBody s =
        .ok .unused t ∧
      t.lifetimes.get? x.id = some ⟨.currentMethod, value⟩ ∧ value.IsOuter ∧
      t.journal.diagnostics.toList = s.journal.diagnostics.toList := by
  obtain ⟨value, hpinned, hv⟩ : ∃ value : Scope,
      Rule.pinned x.modifier .currentMethod ⟨.currentMethod, .callingMethod⟩ =
        ⟨.currentMethod, value⟩ ∧ value.IsOuter := by
    cases x.modifier with
    | unscoped => exact ⟨_, rfl, .inl rfl⟩
    | scopedRef => exact ⟨_, rfl, .inl rfl⟩
    | scopedValue => exact ⟨_, rfl, .inr rfl⟩
  have hinit : ∀ e ∈ some literal, e.form = .literal := by simpa using hliteral
  obtain ⟨t, ht, hl, hd⟩ := declare_plain hx hinit mood .methodBody hs
  refine ⟨t, value, ht, ?_, hv, hd⟩
  rw [hl, Lifetimes.get?_insert, if_pos rfl]
  exact congrArg some hpinned

/-- The local is declared and the calls are read, each around the next. -/
theorem walkBody_forwarding (hw : w.memoizes = false) (hr : w.setting.method.returnsByRef = true)
    {x : Local} (hx : x.passing = .byValue) {literal : Expr} (hliteral : literal.form = .literal)
    (outermost : Forwarder) (inner : List Forwarder) (ty : Ty) (span : Span)
    (hlimit : inner.length + 3 ≤ w.limit) (s : State) :
    ∃ t, w.walkBody [.declare ⟨x, some literal⟩,
        .ret (some (Forwarder.chain (outermost :: inner) ⟨.localVar x, ty, span⟩))] s = .ok () t ∧
      t.journal.diagnostics.toList = s.journal.diagnostics.toList ++
        [Finding.inRegion ⟨.escapeCallMember, outermost.span,
          [outermost.callee.name, outermost.param.name]⟩
          (.ofUnsafe w.setting.method.isUnsafe)] := by
  obtain ⟨more, hmore⟩ := Nat.exists_eq_add_of_le hlimit
  have hdeclared : w.limit = more + inner.length + 1 + 2 := by omega
  have hreturned : w.limit = more + 1 + inner.length + 1 + 1 := by omega
  have hunaware (path : Path) (s : State) : w.Unaware path s := by simp [Unaware, hw]
  let mood : Mood := { region := .ofUnsafe w.setting.method.isUnsafe }
  have hq : mood.quiet = false := rfl
  obtain ⟨s₁, value, hvisit₁, hrecord, hv, hd₁⟩ :=
    declare_literal hx hliteral mood (hunaware [.stmt 0] s)
  rw [← hdeclared] at hvisit₁
  have hrefers : w.Refers (more + 1 + inner.length) s₁.lifetimes
      (Forwarder.chain inner ⟨.localVar x, ty, span⟩) :=
    (refers_localVar hrecord hv ty span).chain hw inner
  obtain ⟨t, hvisit₂, hadds⟩ := (hrefers.reads_returned hw outermost hq).returned hr .methodBody
    (hunaware [.stmt 1] s₁) rfl
  rw [← hreturned] at hvisit₂
  refine ⟨t, walkBody_pair hvisit₁ hvisit₂, ?_⟩
  rw [hadds.diagnostics, hd₁]

/-- An analysis reports what its walk reports. -/
theorem analyze_of_walkBody {body : List Stmt} {t : State}
    (h : w.walkBody body w.initial = .ok () t) :
    ∃ outcome, (w.analyze body).result = .ok outcome ∧
      (w.analyze body).diagnostics = t.journal.diagnostics := by
  unfold analyze EStateM.run
  rw [h]
  exact ⟨_, rfl, t.diagnostics_finished _ _ _⟩

end Walker

/-! ### Whole methods -/

namespace Forwarder

private theorem sites_chain (fs : List Forwarder) (operand : Expr) :
    (chain fs operand).sites = operand.sites := by
  induction fs with
  | nil => rfl
  | cons f rest ih =>
    change (f.call (chain rest operand)).sites = _
    simp [call, Expr.sites, Form.sites, Expr.optionSites, Argument.listSites, ih]

end Forwarder

/-- An analysis succeeds if one that it agrees with does. -/
theorem Outcome.Agree.exists_ok {result : Except Failure Outcome} {outcome : Outcome}
    (h : Outcome.Agree result (.ok outcome)) : ∃ found, result = .ok found := by
  cases h
  exact ⟨_, rfl⟩

/-- However many calls hand a reference to a local on to each other, returning the result of the
outermost one is reported once, there and about its parameter. -/
theorem analyze_reports_forwarding_once {method : Method} (hsafe : method.isUnsafe = false)
    (hr : method.returnsByRef = true) {x : Local} (hx : x.passing = .byValue) {literal : Expr}
    (hliteral : literal.form = .literal) (outermost : Forwarder) (inner : List Forwarder) (ty : Ty)
    (span : Span) {options : Options}
    (hdepth : (outermost :: inner).length + 2 ≤ options.maxDepth) :
    let e := Forwarder.chain (outermost :: inner) ⟨.localVar x, ty, span⟩
    let report := analyze ⟨method, [.declare ⟨x, some literal⟩, .ret (some e)]⟩ options
    ∃ outcome, report.result = .ok outcome ∧ report.diagnostics.toList =
      [⟨.violation .escapeCallMember .error, outermost.span,
        [outermost.callee.name, outermost.param.name]⟩] := by
  intro e report
  let w : Walker := { setting := ⟨options.rules, method⟩, limit := options.maxDepth }
  have hsites : (Stmt.listSites [.declare ⟨x, some literal⟩, .ret (some e)]).Nodup := by
    have hvalue : literal.sites = [] := by
      obtain ⟨form, _, _⟩ := literal
      cases hliteral
      rfl
    simp [Stmt.listSites, Stmt.sites, Declaration.sites, Expr.optionSites, hvalue, e,
      Forwarder.sites_chain, Expr.sites, Form.sites]
  -- No local is declared twice, so the analysis finds what it would find without memory.
  obtain ⟨hagree, hsame⟩ := Walker.analyze_alike (Walker.walkBody_first (w := w) rfl hsites)
  obtain ⟨t, hwalk, hd⟩ := Walker.walkBody_forwarding (w := w.afresh) rfl hr hx hliteral outermost
    inner ty span hdepth w.afresh.initial
  obtain ⟨outcome, hresult, hreported⟩ := Walker.analyze_of_walkBody hwalk
  rw [hresult] at hagree
  obtain ⟨found, hfound⟩ := hagree.exists_ok
  have hinitial : w.afresh.initial.journal.diagnostics.toList = [] := by
    simp [Walker.initial, Method.captureWarnings, hr, w, Walker.afresh]
    rfl
  refine ⟨found, hfound, ?_⟩
  calc report.diagnostics.toList
      = t.journal.diagnostics.toList := congrArg Diagnostics.toList (hsame.trans hreported)
    _ = [Finding.inRegion ⟨.escapeCallMember, outermost.span,
          [outermost.callee.name, outermost.param.name]⟩ (.ofUnsafe method.isUnsafe)] := by
        rw [hd, hinitial]
        rfl
    _ = _ := by
        rw [hsafe]
        rfl

/-- Three calls stand one around another, as deep as the limit allows. -/
theorem analyze_reports_forwarding_once_three :
    let p : Param := { name := "p", ty := .int, passing := .byRef, span := default }
    let q : Param := { name := "q", ty := .int, passing := .byRef, span := default }
    let g : Method :=
      { name := "g", params := [p], returnTy := .int, returnPassing := .byRef, span := default }
    let h : Method :=
      { name := "h", params := [q], returnTy := .int, returnPassing := .byReadOnlyRef,
        span := default }
    let f : Method := { name := "f", returnTy := .int, returnPassing := .byRef, span := default }
    let x : Local := { id := 0, name := "x", ty := .int, span := default }
    let place : Span := .onLine 2 7 30
    let literal : Expr := ⟨.literal, .int, default⟩
    let inner : Expr := ⟨.call none g [⟨⟨.localVar x, .int, default⟩, .byRef⟩], .int, default⟩
    let middle : Expr := ⟨.call none g [⟨inner, .byRef⟩], .int, default⟩
    let outer : Expr := ⟨.call none h [⟨middle, .byRef⟩], .int, place⟩
    let report := analyze ⟨f, [.declare ⟨x, some literal⟩, .ret (some outer)]⟩
      { rules := .legacy, maxDepth := 5 }
    ∃ outcome, report.result = .ok outcome ∧ report.diagnostics.toList =
      [⟨.violation .escapeCallMember .error, place, ["h", "q"]⟩] := by
  intro p q g h f x place literal inner middle outer report
  let last : Forwarder := ⟨h, q, .int, place, rfl, rfl, rfl, rfl, rfl, rfl⟩
  let first : Forwarder := ⟨g, p, .int, default, rfl, rfl, rfl, rfl, rfl, rfl⟩
  have hsafe : f.isUnsafe = false := rfl
  have hdepth : [last, first, first].length + 2 ≤ 5 := by decide
  exact analyze_reports_forwarding_once hsafe rfl rfl rfl last [first, first] .int default hdepth

end RefLifetime
