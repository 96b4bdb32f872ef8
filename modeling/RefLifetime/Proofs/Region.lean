import Mathlib.Data.List.Forall2
import RefLifetime.Proofs.Run
import RefLifetime.Proofs.Tour

/-!
# Regions change severities only

A method body is compared with the same body in which nothing is unsafe. The rules ask the same of
both, so their walks proceed in step and differ in the severities of what they report. Two bodies
that become the same when nothing in them is unsafe are then compared through it.
-/

namespace RefLifetime

mutual

/-- The statement with all its blocks checked. -/
def Stmt.checked : Stmt → Stmt
  | .block body | .uncheckedBlock body => .block (Stmt.listChecked body)
  | .declare d => .declare d
  | .eval e => .eval e
  | .yieldReturn e => .yieldReturn e
  | .ret e => .ret e
  | .throw e => .throw e
  | .ite condition whenTrue none => .ite condition whenTrue.checked none
  | .ite condition whenTrue (some other) => .ite condition whenTrue.checked (some other.checked)
  | .whileLoop condition body => .whileLoop condition body.checked
  | .doLoop condition body => .doLoop condition body.checked
  | .forLoop inits condition increments body =>
    .forLoop (Stmt.listChecked inits) condition increments body.checked
  | .foreach var collection body => .foreach var collection body.checked
  | .using resources body => .using resources body.checked
  | .switch governing sections => .switch governing (Section.listChecked sections)
  | .tryCatch body catches none =>
    .tryCatch (Stmt.listChecked body) (Catch.listChecked catches) none
  | .tryCatch body catches (some cleanup) =>
    .tryCatch (Stmt.listChecked body) (Catch.listChecked catches) (some (Stmt.listChecked cleanup))
  | .break => .break
  | .continue => .continue
  | .empty => .empty
termination_by structural s => s

/-- The statements with all their blocks checked. -/
def Stmt.listChecked : List Stmt → List Stmt
  | [] => []
  | s :: rest => s.checked :: Stmt.listChecked rest
termination_by structural body => body

/-- The sections of a switch statement with all their blocks checked. -/
def Section.listChecked : List Section → List Section
  | [] => []
  | ⟨labels, guard, body⟩ :: rest =>
    ⟨labels, guard, Stmt.listChecked body⟩ :: Section.listChecked rest
termination_by structural sections => sections

/-- The handlers of a try statement with all their blocks checked. -/
def Catch.listChecked : List Catch → List Catch
  | [] => []
  | ⟨var, filter, body⟩ :: rest => ⟨var, filter, Stmt.listChecked body⟩ :: Catch.listChecked rest
termination_by structural catches => catches

end

/-- The method without its unsafe modifier. -/
def Method.checked (m : Method) : Method := { m with isUnsafe := false }

/-- The body with nothing unsafe in it or around it. -/
def Body.checked (body : Body) : Body := ⟨body.method.checked, Stmt.listChecked body.stmts⟩

/-- The node with all its blocks checked. -/
def Node.checked : Node → Node
  | .expr e => .expr e
  | .stmt s => .stmt s.checked

/-- The setting with a method that is not unsafe. -/
def Setting.checked (setting : Setting) : Setting := ⟨setting.rules, setting.method.checked⟩

private theorem Stmt.listChecked_eq_map (body : List Stmt) :
    Stmt.listChecked body = body.map checked := by
  induction body with
  | nil => rfl
  | cons s rest ih => rw [Stmt.listChecked, ih, List.map_cons]

private theorem Section.listChecked_eq_map (sections : List Section) :
    Section.listChecked sections =
      sections.map fun s => ⟨s.labels, s.guard, Stmt.listChecked s.body⟩ := by
  induction sections with
  | nil => rfl
  | cons s rest ih =>
    obtain ⟨labels, guard, body⟩ := s
    rw [Section.listChecked, ih, List.map_cons]

private theorem Catch.listChecked_eq_map (catches : List Catch) :
    Catch.listChecked catches =
      catches.map fun c => ⟨c.var, c.filter, Stmt.listChecked c.body⟩ := by
  induction catches with
  | nil => rfl
  | cons c rest ih =>
    obtain ⟨var, filter, body⟩ := c
    rw [Catch.listChecked, ih, List.map_cons]

mutual

/-- Where a statement starts does not depend on regions. -/
theorem Stmt.span?_checked : (s : Stmt) → s.checked.span? = s.span?
  | .block body | .uncheckedBlock body => Stmt.blockSpan?_checked body
  | .declare _ | .eval _ | .yieldReturn _ | .ret _ | .throw _ => rfl
  | .ite _ _ none | .ite _ _ (some _) | .whileLoop _ _ | .doLoop _ _ => rfl
  | .forLoop inits condition _ body => by
    simp only [Stmt.checked, Stmt.span?, Stmt.blockSpan?_checked inits, body.span?_checked]
  | .foreach _ _ _ => rfl
  | .using [] body => body.span?_checked
  | .using (_ :: _) _ => rfl
  | .switch _ _ => rfl
  | .tryCatch body _ none | .tryCatch body _ (some _) => Stmt.blockSpan?_checked body
  | .break | .continue | .empty => rfl
termination_by structural s => s

private theorem Stmt.blockSpan?_checked :
    (body : List Stmt) → Stmt.blockSpan? (Stmt.listChecked body) = Stmt.blockSpan? body
  | [] => rfl
  | s :: rest => by
    simp only [Stmt.listChecked, Stmt.blockSpan?, s.span?_checked, Stmt.blockSpan?_checked rest]
termination_by structural body => body

end

private theorem Node.span_checked (fallback : Span) (node : Node) :
    node.checked.span fallback = node.span fallback := by
  cases node with
  | expr e => rfl
  | stmt s => exact congrArg (·.getD fallback) s.span?_checked

/-! ### Rules in step -/

/-- The second visit is that of the checked node, as quiet as the first and in no region of its
own. -/
def Node.Recast (node : Node) (inner : Mood) (node' : Node) (inner' : Mood) : Prop :=
  node' = node.checked ∧ inner'.quiet = inner.quiet ∧ inner'.region = .checked

/-- A tour of expressions opens no region. -/
theorem Plan.Tours.in_step {α : Type} {whole : Demand} {hazard : Prop} {Q : α → Prop}
    {seen : List Answer} {todo : List Stop} {p : Plan α} (h : Tours whole hazard Q seen todo p)
    (ht : Stop.All (fun p => ∃ e, p.node = .expr e) todo) : Lockstep Node.Recast p p := by
  induction h with
  | done h => exact .done _
  | fail hz => exact .fail _
  | first hq ha hn ih =>
    obtain ⟨e, he⟩ := ht.head
    exact .visit ⟨by rw [he]; rfl, rfl, hq.2 ⟨e, he⟩⟩ fun scope => ih scope ht.tail
  | again hq hx hf hd hn ih =>
    obtain ⟨e, he⟩ := hf.2
    exact .visit ⟨by rw [he]; rfl, rfl, by rw [hq]⟩ fun scope => ih scope ht
  | declare hz hn ih => exact .declare (ih ht.tail)
  | @designate seen todo var lifetime next h hn ih =>
    have hrest (found : Lifetime) : Lockstep Node.Recast (next (some found)) (next (some found)) :=
      ih found ht.tail
    refine .lookup fun found => ?_
    cases found with
    | none =>
      rw [h]
      exact .declare (hrest lifetime)
    | some found => exact hrest found
  | @lookup seen todo id cause next hz h hn ih =>
    refine .lookup fun found => ?_
    cases found with
    | none =>
      rw [h]
      exact .fail cause
    | some found => exact ih found ht
  | report hn ih => exact .report (ih ht)
  | hint hn ih => exact .hint (ih ht)

namespace Rule

open Plan

/-- A statement and the checked one. -/
theorem perform_in_step (route : Path) (s : Stmt) (demand : Demand) (region : Region) :
    Lockstep Node.Recast (perform route s demand region) (perform route s.checked demand) :=
  .visit ⟨rfl, rfl, rfl⟩ fun _ => .done ()

private theorem evaluate_in_step (route : Path) (e : Expr) (demand : Demand) :
    Lockstep Node.Recast (evaluate route e demand) (evaluate route e demand) :=
  .visit ⟨rfl, rfl, rfl⟩ fun scope => .done scope

private theorem evaluate?_in_step (route : Path) (e : Option Expr) (demand : Demand) :
    Lockstep Node.Recast (evaluate? route e demand) (evaluate? route e demand) := by
  cases e with
  | none => exact .done ()
  | some e => exact .bind (evaluate_in_step route e demand) fun _ => .done _

/-- The statements of a block and of the checked one. -/
theorem stmts_in_step (route : Path) (body : List Stmt) (demand : Demand) (region : Region) :
    Lockstep Node.Recast (stmts route body demand region)
      (stmts route (Stmt.listChecked body) demand) := by
  rw [Stmt.listChecked_eq_map]
  refine .bind (.forEach Stmt.checked (fun i s => ?_) body 0) fun _ => .done _
  exact perform_in_step (route ++ [.stmt i]) s demand region

private theorem forEach_in_step {α β : Type} {f : Nat → α → Plan β}
    (h : ∀ i a, Lockstep Node.Recast (f i a) (f i a)) (items : List α) :
    Lockstep Node.Recast (forEach f items) (forEach f items) := by
  simpa using Lockstep.forEach id h items 0

private theorem declaration_in_step (route : Path) (d : Declaration) (demand : Demand) :
    Lockstep Node.Recast (declaration route d demand) (declaration route d demand) := by
  have ht : (declaration route d demand).Tours demand True (fun _ => True) []
      (Stop.declaration route false d) := declaration_tours trivial route false rfl d
  refine ht.in_step ?_
  exact (Stop.all_ofOption (fun e => Stop.all_part ⟨e, rfl⟩) d.init).append Stop.all_nil.cons_site

private theorem pattern_in_step (route : Path) (input : Scope) (demand : Demand) (p : Pattern) :
    Lockstep Node.Recast (pattern route input demand p) (pattern route input demand p) := by
  have ht : (pattern route input demand p).Tours demand True (fun _ => True) []
      (p.stops route false) := pattern_tours trivial false rfl route input p
  exact ht.in_step ((p.stops_loose route false).imp fun _ h => h.1.2.2)

/-- A section of a switch statement and the checked one. -/
theorem switchSection_in_step (input : Scope) (inner : Demand) (i : Nat) (s : Section) :
    Lockstep Node.Recast (switchSection input inner i s)
      (switchSection input inner i ⟨s.labels, s.guard, Stmt.listChecked s.body⟩) := by
  refine .bind (.bind (forEach_in_step (fun j p => ?_) s.labels) fun _ => .done _) fun _ => ?_
  · exact pattern_in_step [.arm i, .label j] input inner p
  · exact .bind (evaluate?_in_step [.arm i, .guard] s.guard inner.forValue) fun _ =>
      stmts_in_step [.arm i] s.body inner .checked

/-- A handler of a try statement and the checked one. -/
theorem handler_in_step (inner : Demand) (i : Nat) (c : Catch) :
    Lockstep Node.Recast (handler inner i c)
      (handler inner i ⟨c.var, c.filter, Stmt.listChecked c.body⟩) := by
  obtain ⟨var, filter, body⟩ := c
  have hrest : Lockstep Node.Recast
      (evaluate? [.arm i, .guard] filter inner.forValue >>= fun _ => stmts [.arm i] body inner)
      (evaluate? [.arm i, .guard] filter inner.forValue >>= fun _ =>
        stmts [.arm i] (Stmt.listChecked body) inner) :=
    .bind (evaluate?_in_step [.arm i, .guard] filter inner.forValue) fun _ =>
      stmts_in_step [.arm i] body inner .checked
  cases var with
  | none => exact hrest
  | some var => exact .declare hrest

/-- A statement and the checked one ask the same of their parts. -/
theorem stmt_in_step (setting : Setting) (s : Stmt) (demand : Demand) :
    Lockstep Node.Recast (stmt setting s demand) (stmt setting.checked s.checked demand) := by
  have hread (route : Path) (e : Expr) (asked : Demand) : Lockstep Node.Recast
      (discard (evaluate route e asked)) (discard (evaluate route e asked)) :=
    .bind (evaluate_in_step route e asked) fun _ => .done _
  cases s with
  | block body => exact stmts_in_step [] body demand.enterBlock .checked
  | uncheckedBlock body => exact stmts_in_step [] body demand.enterBlock .unchecked
  | declare d => exact declaration_in_step [.init 0] d demand
  | eval e | yieldReturn e => exact hread [.operand] e demand.forValue
  | ret e | throw e => exact evaluate?_in_step [.operand] e _
  | ite condition whenTrue whenFalse =>
    cases whenFalse with
    | none =>
      exact .bind (hread [.condition] condition _) fun _ =>
        .bind (perform_in_step [.left] whenTrue demand .checked) fun _ => .done ()
    | some other =>
      exact .bind (hread [.condition] condition _) fun _ =>
        .bind (perform_in_step [.left] whenTrue demand .checked) fun _ =>
          perform_in_step [.right] other demand .checked
  | whileLoop condition body | doLoop condition body =>
    exact .bind (hread [.condition] condition _) fun _ =>
      perform_in_step [.body] body demand .checked
  | forLoop inits condition increments body =>
    simp only [stmt, Stmt.checked, Stmt.listChecked_eq_map]
    refine .bind (.bind (.forEach Stmt.checked (fun i s => ?_) inits 0) fun _ => .done _) fun _ =>
      .bind (evaluate?_in_step [.condition] condition _) fun _ =>
        .bind (.bind (forEach_in_step (fun i e => ?_) increments) fun _ => .done _) fun _ =>
          perform_in_step [.body] body demand.enterBlock .checked
    · exact perform_in_step [.init i] s demand.enterBlock .checked
    · exact evaluate_in_step [.increment i] e _
  | foreach var collection body =>
    exact .bind (evaluate_in_step [.operand] collection _) fun _ =>
      .declare (perform_in_step [.body] body demand.enterBlock .checked)
  | «using» resources body =>
    refine .bind (.bind (forEach_in_step (fun i d => ?_) resources) fun _ => .done _) fun _ =>
      perform_in_step [.body] body demand.enterBlock .checked
    exact declaration_in_step [.init i] d demand.enterBlock
  | switch governing sections =>
    simp only [stmt, Stmt.checked, Section.listChecked_eq_map]
    refine .bind (evaluate_in_step [.operand] governing _) fun input => ?_
    exact .bind (.forEach _ (switchSection_in_step input demand.enterBlock) sections 0) fun _ =>
      .done _
  | tryCatch body catches cleanup =>
    have hhandlers : Lockstep Node.Recast
        (discard (forEach (handler demand.enterBlock) catches))
        (discard (forEach (handler demand.enterBlock) (Catch.listChecked catches))) := by
      rw [Catch.listChecked_eq_map]
      exact .bind (.forEach _ (handler_in_step demand.enterBlock) catches 0) fun _ => .done _
    cases cleanup with
    | none =>
      exact .bind (stmts_in_step [.body] body _ .checked) fun _ =>
        .bind hhandlers fun _ => .done ()
    | some final =>
      exact .bind (stmts_in_step [.body] body _ .checked) fun _ =>
        .bind hhandlers fun _ => stmts_in_step [.cleanup] final _ .checked
  | «break» | «continue» | empty => exact .done ()

/-- A node and the checked one ask the same of their parts. -/
theorem node_in_step (setting : Setting) (n : Node) (demand : Demand) :
    Lockstep Node.Recast (node setting n demand) (node setting.checked n.checked demand) := by
  cases n with
  | expr e =>
    refine (expr_tours setting e (fun _ => trivial) demand).in_step ?_
    exact (e.stops_inner setting).imp fun _ h => h.2.2
  | stmt s => exact .bind (stmt_in_step setting s demand) fun _ => .done _

end Rule

/-! ### Walks in step -/

/-- Warnings about a signature are all of one kind. -/
theorem Method.code_captureWarning {m : Method} {rules : Rules} {d : Diagnostic}
    (h : d ∈ m.captureWarnings rules) : d.code = .mayCaptureRefParameter := by
  unfold Method.captureWarnings at h
  split at h
  · obtain ⟨p, -, rfl⟩ := List.mem_map.mp h
    rfl
  · cases h

/-- The diagnostic as it is in an unchecked region. -/
def Diagnostic.unchecked (d : Diagnostic) : Diagnostic :=
  { d with code := d.code.inRegion .unchecked }

/-- Where a finding is made decides its severity only. -/
theorem Finding.unchecked_inRegion (finding : Finding) (region : Region) :
    (finding.inRegion region).unchecked = finding.inRegion .unchecked := by
  cases region <;> rfl

namespace State

/-- The second state differs from the first in severities only. In the second every violation is an
error, and in the first none is if it is `exempt`. -/
structure Recast (exempt : Prop) (s t : State) : Prop where
  lifetimes : s.lifetimes = t.lifetimes
  memo : s.memo = t.memo
  hints : s.journal.hints = t.journal.hints
  diagnostics : s.journal.diagnostics.toList.map Diagnostic.unchecked =
    t.journal.diagnostics.toList.map Diagnostic.unchecked
  errors : ∀ d ∈ t.journal.diagnostics.toList,
    d.code ≠ .mayCaptureRefParameter → d.severity = .error
  warnings : exempt → ∀ d ∈ s.journal.diagnostics.toList, d.severity = .warning

variable {exempt : Prop} {s t : State}

/-- Both enter an event, the same up to its severity. -/
theorem Recast.note (h : Recast exempt s t) {event event' : Event}
    (hh : event.hint? = event'.hint?)
    (hd : event.diagnostic?.map Diagnostic.unchecked = event'.diagnostic?.map Diagnostic.unchecked)
    (he : ∀ d, event'.diagnostic? = some d → d.code ≠ .mayCaptureRefParameter →
      d.severity = .error)
    (hw : exempt → ∀ d, event.diagnostic? = some d → d.severity = .warning) :
    Recast exempt (s.note event) (t.note event') := by
  refine ⟨h.lifetimes, h.memo, ?_, ?_, fun d hm => ?_, fun hx d hm => ?_⟩
  · simp only [State.note, Journal.hints_push, h.hints, hh]
  · simp only [State.note, Journal.diagnostics_push, List.map_append, h.diagnostics]
    rw [← Option.toList_map, ← Option.toList_map, hd]
  · simp only [State.note, Journal.diagnostics_push, List.mem_append, Option.mem_toList] at hm
    rcases hm with hm | hm
    · exact h.errors d hm
    · exact he d hm
  · simp only [State.note, Journal.diagnostics_push, List.mem_append, Option.mem_toList] at hm
    rcases hm with hm | hm
    · exact h.warnings hx d hm
    · exact hw hx d hm

/-- Both enter an event that is no diagnostic. -/
theorem Recast.noteSame (h : Recast exempt s t) (event : Event) (hd : event.diagnostic? = none) :
    Recast exempt (s.note event) (t.note event) := by
  refine h.note rfl rfl (fun d hs => ?_) fun _ d hs => ?_
  · rw [hd] at hs
    cases hs
  · rw [hd] at hs
    cases hs

end State

/-- The second mood is as quiet as the first and in a checked region. An exempt one is in an
unchecked region. -/
structure Mood.Recast (exempt : Prop) (mood mood' : Mood) : Prop where
  quiet : mood'.quiet = mood.quiet
  region : mood'.region = .checked
  unchecked : exempt → mood.region = .unchecked

/-- Inner moods that are recast are so in moods that are. -/
theorem Mood.Recast.within {exempt : Prop} {mood mood' inner inner' : Mood}
    (h : Recast exempt mood mood') (hq : inner'.quiet = inner.quiet)
    (hr : inner'.region = .checked) : Recast exempt (inner.within mood) (inner'.within mood') where
  quiet := by simp [Mood.within, h.quiet, hq]
  region := by simp [Mood.within, Region.within, h.region, hr]
  unchecked hx := by simp [Mood.within, Region.within, h.unchecked hx]

/-- What is found in step is told in step. -/
theorem State.Recast.matching {exempt : Prop} {mood mood' : Mood}
    (h : Mood.Recast exempt mood mood') : Matching (State.Recast exempt) mood mood' where
  lookup id hs := by rw [hs.lifetimes]
  declare var lifetime hs := by
    have hn := hs.noteSame (.declared var.name lifetime) rfl
    exact ⟨congrArg (·.insert var.id lifetime) hs.lifetimes, hn.memo, hn.hints, hn.diagnostics,
      hn.errors, hn.warnings⟩
  report finding hs := by
    unfold State.tell
    rw [h.quiet]
    split
    · exact hs
    · refine hs.note rfl ?_ (fun d hd _ => ?_) fun hx d hd => ?_
      · simp only [Event.diagnostic?, Option.map_some, Finding.unchecked_inRegion]
      · cases hd
        rw [h.region]
        rfl
      · cases hd
        rw [h.unchecked hx]
        rfl
  hint id hs := by
    unfold State.tell
    rw [h.quiet]
    split
    · exact hs
    · exact hs.noteSame (.hinted id) rfl

namespace Walker

variable (w : Walker) {exempt : Prop}

/-- The walker of the method without its unsafe modifier. -/
def checked : Walker := { w with setting := w.setting.checked }

/-- Visits are in step if the computations of their answers are. -/
theorem visit_in_step_of_compute {levels : Nat} {mood mood' : Mood}
    (hm : Mood.Recast exempt mood mood') {path : Path} {node : Node} {demand : Demand}
    (hc : ∀ s t : State, s.Recast exempt t →
      Ending.Alike (fun a s b t => a = b ∧ State.Recast exempt s t) (State.Recast exempt)
        (w.compute levels mood path node demand s)
        (w.checked.compute levels mood' path node.checked demand t))
    {s t : State} (h : s.Recast exempt t) :
    Ending.Alike (fun a s b t => a = b ∧ State.Recast exempt s t) (State.Recast exempt)
      (w.visit levels mood path node demand s)
      (w.checked.visit levels mood' path node.checked demand t) := by
  cases node with
  | stmt st =>
    rw [visit_stmt, Node.checked, visit_stmt]
    exact hc s t h
  | expr e =>
    rw [Node.checked]
    -- Regions do not enter the memory, so both visits recall or neither does.
    have hr : w.checked.remembered t path demand mood'.quiet =
        w.remembered s path demand mood.quiet := by
      simp only [remembered, checked, h.memo, hm.quiet]
    cases hk : w.remembered s path demand mood.quiet with
    | some scope =>
      rw [visit_recalled w hk, visit_recalled w.checked (hr.trans hk), hm.quiet]
      exact .ok ⟨rfl, h.noteSame _ rfl⟩
    | none =>
      rw [visit_computed w hk, visit_computed w.checked (hr.trans hk), hm.quiet]
      refine (hc _ _ (h.noteSame _ rfl)).andThen ?_ fun _ _ h => h
      rintro a s _ t ⟨rfl, hs⟩
      refine .ok ⟨rfl, hs.lifetimes, ?_, hs.hints, hs.diagnostics, hs.errors, hs.warnings⟩
      simp only [State.remember, hs.memo]

/-- A visit and the visit of the checked node proceed in step. -/
theorem visit_in_step (levels : Nat) {mood mood' : Mood} (hm : Mood.Recast exempt mood mood')
    (path : Path) (node : Node) (demand : Demand) {s t : State} (h : s.Recast exempt t) :
    Ending.Alike (fun a s b t => a = b ∧ State.Recast exempt s t) (State.Recast exempt)
      (w.visit levels mood path node demand s)
      (w.checked.visit levels mood' path node.checked demand t) := by
  induction levels generalizing mood mood' path node demand s t with
  | zero =>
    refine w.visit_in_step_of_compute hm (fun s t h => ?_) h
    rw [compute_zero, compute_zero, Node.span_checked]
    exact .error h
  | succ levels ih =>
    refine w.visit_in_step_of_compute hm (fun s t h => ?_) h
    refine (Rule.node_in_step w.setting node demand).run (State.Recast.matching hm) ?_ h
    rintro route part _ asked inner inner' s t ⟨rfl, hq, hr⟩ hs
    exact ih (hm.within hq hr) (path ++ route) part asked hs

/-- When the walk of a body begins, there are only warnings about the signature. -/
theorem initial_recast : State.Recast exempt w.initial w.checked.initial := by
  change State.Recast exempt w.initial w.initial
  refine w.initial_induction (P := fun s => State.Recast exempt s s) ?_ fun d hd s hs => ?_
  · have hempty : State.Recast exempt {} {} := by
      refine ⟨rfl, rfl, rfl, rfl, fun d h => ?_, fun _ d h => ?_⟩
      · cases h
      · cases h
    exact hempty.noteSame _ rfl
  · have hcode := Method.code_captureWarning hd
    refine hs.note rfl rfl (fun d' hd' hne => ?_) fun _ d' hd' => ?_
    · cases hd'
      exact absurd hcode hne
    · cases hd'
      rw [Diagnostic.severity, hcode]
      rfl

/-- The walks of a body and of the checked one proceed in step. -/
theorem walkBody_in_step (body : List Stmt) :
    Ending.Alike
      (fun _ s _ t => State.Recast (w.setting.method.isUnsafe = true) s t)
      (State.Recast (w.setting.method.isUnsafe = true))
      (w.walkBody body w.initial)
      (w.checked.walkBody (Stmt.listChecked body) w.checked.initial) := by
  have hm : Mood.Recast (w.setting.method.isUnsafe = true)
      { region := .ofUnsafe w.setting.method.isUnsafe } { region := .ofUnsafe false } :=
    ⟨rfl, rfl, fun hx => by simp [hx, Region.ofUnsafe]⟩
  have hrun : Ending.Alike
      (fun a s b t => a = b ∧ State.Recast (w.setting.method.isUnsafe = true) s t)
      (State.Recast (w.setting.method.isUnsafe = true))
      (w.walkBody body w.initial)
      (w.checked.walkBody (Stmt.listChecked body) w.checked.initial) := by
    refine (Rule.stmts_in_step [] body .methodBody .checked).run (State.Recast.matching hm) ?_
      w.initial_recast
    rintro route part _ asked inner inner' s t ⟨rfl, hq, hr⟩ hs
    exact w.visit_in_step w.limit (hm.within hq hr) route part asked hs
  exact hrun.imp (fun _ _ _ _ h => h.2) fun _ _ h => h

end Walker

/-! ### Whole analyses -/

/-- The second report differs from the first in severities only. -/
structure Report.Recast (exempt : Prop) (r r' : Report) : Prop where
  result : r.result = r'.result
  diagnostics : r.diagnostics.toList.map Diagnostic.unchecked =
    r'.diagnostics.toList.map Diagnostic.unchecked
  errors : ∀ d ∈ r'.diagnostics.toList, d.code ≠ .mayCaptureRefParameter → d.severity = .error
  warnings : exempt → ∀ d ∈ r.diagnostics.toList, d.severity = .warning

/-- The analysis of a body and of the same body with nothing unsafe. -/
theorem analyze_recast (body : Body) (options : Options) :
    Report.Recast (body.method.isUnsafe = true) (analyze body options)
      (analyze body.checked options) := by
  let w : Walker := { setting := ⟨options.rules, body.method⟩, limit := options.maxDepth }
  have hwalk := w.walkBody_in_step body.stmts
  change Report.Recast _ (w.analyze body.stmts)
    (w.checked.analyze (Stmt.listChecked body.stmts))
  unfold Walker.analyze EStateM.run
  generalize w.walkBody body.stmts w.initial = r at hwalk ⊢
  generalize w.checked.walkBody (Stmt.listChecked body.stmts) w.checked.initial = r' at hwalk ⊢
  cases hwalk with
  | @ok _ s _ t h =>
    have hresult : (.ok ⟨.unused, s.journal.hints, s.lifetimes⟩ : Except Failure Outcome) =
        .ok ⟨.unused, t.journal.hints, t.lifetimes⟩ := by
      rw [h.hints, h.lifetimes]
    let finish (s : State) : State :=
      s.note (.finished body.method.name s.journal.diagnostics.size s.journal.hints.length)
    have hended : (finish s).Recast (body.method.isUnsafe = true) (finish t) :=
      h.note rfl rfl (fun _ hd => by cases hd) fun _ _ hd => by cases hd
    exact ⟨hresult, hended.diagnostics, hended.errors, hended.warnings⟩
  | error h => exact ⟨rfl, h.diagnostics, h.errors, h.warnings⟩

/-- Unsafe regions change severities only. Two bodies that differ in what is unsafe give the same
result, and the same diagnostics up to their severities. In an unsafe method there are only
warnings, and where nothing is unsafe every violation is an error. -/
theorem unsafe_changes_severity_only (a b : Body) (h : a.checked = b.checked) (options : Options) :
    (analyzeInto {} a options).1 = (analyzeInto {} b options).1 ∧
      List.Forall₂
        (fun d d' : Diagnostic => d.span = d'.span ∧ d.args = d'.args ∧
          d.code.inRegion .unchecked = d'.code.inRegion .unchecked)
        (analyzeInto {} a options).2.toList (analyzeInto {} b options).2.toList ∧
      (a.method.isUnsafe = true →
        ∀ d ∈ (analyzeInto {} a options).2.toList, d.severity = .warning) ∧
      (a.checked = a →
        ∀ d ∈ (analyzeInto {} a options).2.toList, d.code ≠ .mayCaptureRefParameter →
          d.severity = .error) := by
  have ha := analyze_recast a options
  have hb := analyze_recast b options
  rw [← h] at hb
  refine ⟨ha.result.trans hb.result.symm, ?_, ha.warnings, fun hc => ?_⟩
  · have hmap := ha.diagnostics.trans hb.diagnostics.symm
    rw [← List.forall₂_eq_eq_eq, List.forall₂_map_left_iff, List.forall₂_map_right_iff] at hmap
    refine hmap.imp fun d d' he => ?_
    have hspan := congrArg Diagnostic.span he
    have hargs := congrArg Diagnostic.args he
    exact ⟨hspan, hargs, congrArg Diagnostic.code he⟩
  · have herrors := ha.errors
    rw [hc] at herrors
    exact herrors

/-- A location is returned that does not outlive the method. In an unsafe block that is warned
about, and without one it is an error. -/
theorem unsafe_changes_severity_only_return :
    let x : Local := { id := 0, name := "x", ty := .int, span := default }
    let f : Method := { name := "f", returnTy := .int, returnPassing := .byRef, span := default }
    let inner : List Stmt :=
      [.declare ⟨x, some ⟨.literal, .int, default⟩⟩, .ret (some ⟨.localVar x, .int, default⟩)]
    let a : Body := ⟨f, [.uncheckedBlock inner]⟩
    let b : Body := ⟨f, [.block inner]⟩
    a.checked = b.checked ∧ b.checked = b ∧
      (analyzeInto {} a {}).2.toList.map (·.severity) = [.warning] ∧
      (analyzeInto {} b {}).2.toList.map (·.severity) = [.error] ∧
      (analyzeInto {} a {}).1 = (analyzeInto {} b {}).1 ∧
      List.Forall₂
        (fun d d' : Diagnostic => d.span = d'.span ∧ d.args = d'.args ∧
          d.code.inRegion .unchecked = d'.code.inRegion .unchecked)
        (analyzeInto {} a {}).2.toList (analyzeInto {} b {}).2.toList := by
  intro x f inner a b
  have hsame : a.checked = b.checked := rfl
  have h := unsafe_changes_severity_only a b hsame {}
  exact ⟨hsame, rfl, by decide, by decide, h.1, h.2.1⟩

end RefLifetime
