import RefLifetime.Proofs.Entry
import RefLifetime.Proofs.Invocations

/-!
# Scoped locals

A local that is `scoped` stays in the block that declares it: its value, or, for a scoped reference,
its location. Declarations, patterns and arguments see to that. An iteration variable and the
variable of a handler take their scopes from elsewhere, whatever their modifier is.
-/

namespace RefLifetime

/-- The lifetime keeps to the block as far as the modifier says. -/
structure Lifetime.Pinned (lifetime : Lifetime) (modifier : Modifier) (block : Scope) : Prop where
  value : modifier = .scopedValue → lifetime.value = block
  ref : modifier = .scopedRef → lifetime.ref = block

private theorem Rule.pinned_pinned (modifier : Modifier) (block : Scope) (lifetime : Lifetime) :
    (Rule.pinned modifier block lifetime).Pinned modifier block := by
  constructor
  · rintro rfl
    rfl
  · rintro rfl
    rfl

private theorem Rule.designated_pinned (demand : Demand) (value : Scope) (var : Local) :
    (Rule.designated demand value var).Pinned var.modifier demand.block := by
  constructor
  · intro h
    rw [designated, if_pos h]
  · intro _
    rfl

/-! ### What a steady rule has on record -/

section Steady

variable {α β : Type} {answers : Node → Demand → Scope → Prop} {table : Lifetimes}

private theorem Plan.Steady.of_discard {p : Plan α} (h : (discard p).Steady answers table ()) :
    ∃ a, p.Steady answers table a := by
  obtain ⟨a, ha, -⟩ := bind_iff.mp h
  exact ⟨a, ha⟩

/-- What is done for each member of a list is steady for each of them. -/
theorem Plan.Steady.of_forEach {f : Nat → α → Plan β} {items : List α} {start : Nat}
    {results : List β} (h : (Plan.forEach f items start).Steady answers table results) {a : α}
    (ha : a ∈ items) : ∃ i b, (f i a).Steady answers table b := by
  induction items generalizing start results with
  | nil => cases ha
  | cons first rest ih =>
    obtain ⟨b, hfirst, h⟩ := bind_iff.mp h
    obtain ⟨bs, hrest, -⟩ := bind_iff.mp h
    rcases List.mem_cons.mp ha with rfl | ha
    · exact ⟨start, b, hfirst⟩
    · exact ih hrest ha

/-- On record for the local is a lifetime that keeps to the block as the local's modifier says. -/
def Lifetimes.Pins (table : Lifetimes) (block : Scope) (var : Local) : Prop :=
  ∃ lifetime, table.get? var.id = some lifetime ∧ lifetime.Pinned var.modifier block

namespace Rule

private theorem declaration_pins {route : Path} {d : Declaration} {demand : Demand}
    (h : (declaration route d demand).Steady answers table ()) : table.Pins demand.block d.var := by
  have hdeclared (lifetime : Lifetime)
      (h : (Plan.declaring d.var (pinned d.var.modifier demand.block lifetime)).Steady answers table
        ()) : table.Pins demand.block d.var :=
    ⟨_, h.1, pinned_pinned _ _ lifetime⟩
  unfold declaration at h
  split at h
  · exact hdeclared _ h
  · split at h
    · obtain ⟨ref, -, h⟩ := Plan.Steady.bind_iff.mp h
      obtain ⟨value, -, h⟩ := Plan.Steady.bind_iff.mp h
      exact hdeclared _ h
    · obtain ⟨value, -, h⟩ := Plan.Steady.bind_iff.mp h
      exact hdeclared _ h

private theorem designation_pins {var : Option Local} {input : Scope} {demand : Demand}
    (h : (designation var input demand).Steady answers table ()) :
    ∀ x ∈ var.toList, table.Pins demand.block x := by
  intro x hx
  cases var with
  | none => cases hx
  | some v =>
    rw [Option.toList_some, List.mem_singleton] at hx
    subst hx
    exact ⟨_, h.1, designated_pinned demand _ x⟩

mutual

/-- A pattern pins the variables that it names. -/
theorem pattern_pins {route : Path} {input : Scope} {demand : Demand} (p : Pattern)
    (h : (pattern route input demand p).Steady answers table ()) :
    ∀ x ∈ p.locals, table.Pins demand.block x := by
  match p with
  | .discard | .type _ | .constant _ | .relational _ | .slice none =>
    intro x hx
    cases hx
  | .declaration var => exact designation_pins h
  | .recursive properties var =>
    obtain ⟨_, hproperties, hvar⟩ := Plan.Steady.bind_iff.mp h
    exact List.forall_mem_append.mpr
      ⟨propertyPatterns_pins properties hproperties, designation_pins hvar⟩
  | .list elements var =>
    obtain ⟨_, helements, hvar⟩ := Plan.Steady.bind_iff.mp h
    exact List.forall_mem_append.mpr
      ⟨elementPatterns_pins elements helements, designation_pins hvar⟩
  | .slice (some rest) => exact pattern_pins rest h
  | .not inner => exact pattern_pins inner h
  | .and left right | .or left right =>
    obtain ⟨_, hleft, hright⟩ := Plan.Steady.bind_iff.mp h
    exact List.forall_mem_append.mpr ⟨pattern_pins left hleft, pattern_pins right hright⟩

private theorem elementPatterns_pins {route : Path} {input : Scope} {demand : Demand} {i : Nat}
    (ps : List Pattern) (h : (elementPatterns route input demand i ps).Steady answers table ()) :
    ∀ x ∈ Pattern.listLocals ps, table.Pins demand.block x := by
  match ps with
  | [] =>
    intro x hx
    cases hx
  | p :: rest =>
    obtain ⟨_, hp, hrest⟩ := Plan.Steady.bind_iff.mp h
    exact List.forall_mem_append.mpr ⟨pattern_pins p hp, elementPatterns_pins rest hrest⟩

private theorem propertyPatterns_pins {route : Path} {input : Scope} {demand : Demand} {i : Nat}
    (ps : List Property) (h : (propertyPatterns route input demand i ps).Steady answers table ()) :
    ∀ x ∈ Property.listLocals ps, table.Pins demand.block x := by
  match ps with
  | [] =>
    intro x hx
    cases hx
  | ⟨member, p⟩ :: rest =>
    obtain ⟨_, hp, hrest⟩ := Plan.Steady.bind_iff.mp h
    exact List.forall_mem_append.mpr ⟨pattern_pins p hp, propertyPatterns_pins rest hrest⟩

end

end Rule

end Steady

/-! ### What a first visit has on record -/

/-- The first of some variables with an id is the only one, if the ids differ. -/
theorem Rule.firstNamed_of_mem {vars : List Local} (hn : (vars.map (·.id)).Nodup) {x : Local}
    (hx : x ∈ vars) : Rule.firstNamed x.id vars = some x := by
  unfold firstNamed
  cases hf : vars.find? (·.id == x.id) with
  | none =>
    have hne := List.find?_eq_none.mp hf x hx
    simp at hne
  | some y =>
    have hid : y.id = x.id := by simpa using List.find?_some hf
    rw [List.inj_on_of_nodup_map hn (List.mem_of_find?_eq_some hf) hx hid]

/-- The sites of variables that may be absent. -/
theorem Stop.ids_outVars (inside : Node → List Nat) (es : List Expr) :
    Stop.ids inside (Stop.outVars (es.map (·.form.outVar?))) =
      (es.filterMap (·.form.outVar?)).map (·.id) := by
  induction es with
  | nil => rfl
  | cons e rest ih =>
    cases ho : e.form.outVar? with
    | none => simpa [Stop.outVars, ho] using ih
    | some var => simpa [Stop.outVars, Stop.ids, ho] using ih

/-- An invocation comes by the arguments, the variables among them and the values of fields. -/
theorem Form.Invokes.ids {e : Expr} {receiver : Option Expr} {callee : Method}
    {args : List Argument} {inits : List FieldInit}
    (h : e.form.Invokes receiver callee args inits) (setting : Setting) (levels : Nat) :
    Node.ids setting (levels + 1) (.expr e) =
      Stop.ids (Node.ids setting levels) (Stop.actuals receiver args) ++
        ((Argument.outVars receiver args).map (·.id) ++
          Stop.ids (Node.ids setting levels) (Stop.inits inits)) := by
  have hstops : e.stops setting = Stop.actuals receiver args ++
      (Stop.outVars ((receiver.toList ++ args.map (·.value)).map (·.form.outVar?)) ++
        Stop.inits inits) := by
    obtain ⟨form, ty, span⟩ := e
    cases h with
    | call => simp [Expr.stops, Stop.invocation, Stop.actuals, Stop.inits, Stop.forEach]
    | creation => simp [Expr.stops, Stop.invocation, Stop.actuals, Stop.inits]
  change Stop.ids _ (e.stops setting) = _
  rw [hstops, Argument.outVars, ← Stop.ids_outVars (Node.ids setting levels)]
  simp only [Stop.ids, List.flatMap_append]

/-- The node heeds the modifiers of the locals that it declares. -/
def Node.heedsModifiers : Node → Bool
  | .stmt (.foreach _ _ _) | .stmt (.tryCatch _ _ _) => false
  | _ => true

/-- The block that a node in `block` declares its locals in. -/
def Node.home (node : Node) (block : Scope) : Scope :=
  if node.opensBlock then block.enterBlock else block

namespace Walker.Enters

variable {w : Walker} {final : Lifetimes} {levels : Nat} {path : Path} {node : Node} {e : Expr}
  {demand : Demand} {x : Local}

/-- A node that was entered has a steady answer by what is on record in the end. -/
theorem steady (hw : w.memoizes = true) (h : w.Enters final levels path node demand) :
    ∃ scope, node.Steady w.setting levels final demand scope := by
  obtain ⟨loud, fresh, nodup, new, visit, kept⟩ := h
  obtain ⟨-, hsteady, -, -⟩ := matched_of_visit hw loud fresh nodup new visit
  exact ⟨_, hsteady.mono kept⟩

/-- An invocation that was entered pins the variables among its arguments. -/
theorem pins_outVar {receiver : Option Expr} {callee : Method} {args : List Argument}
    {inits : List FieldInit} (hform : e.form.Invokes receiver callee args inits)
    (h : w.Enters final (levels + 1) path (.expr e) demand)
    (hx : x ∈ Argument.outVars receiver args) : final.Pins demand.block x := by
  obtain ⟨loud, fresh, nodup, new, visit, kept⟩ := h
  obtain ⟨t', hrun, hlife, -⟩ := w.carryOut_of_visit fresh visit
  obtain ⟨given, s₁, hgiven, hrecords⟩ := w.invocation_records hform hrun
  rw [hform.ids] at nodup new
  obtain ⟨-, hrest, hbefore⟩ := List.nodup_append.mp nodup
  obtain ⟨hvars, -, hafter⟩ := List.nodup_append.mp hrest
  have hid : x.id ∈ (Argument.outVars receiver args).map (·.id) := List.mem_map_of_mem hx
  -- Neither the arguments nor the values of fields declare the variable.
  have hundeclared : s₁.lifetimes.get? x.id = none := by
    have honly := w.carryOut_recordsOnly (Rule.evaluated_tours callee receiver args demand) hgiven
    rw [honly x.id fun hm => hbefore _ hm _ (List.mem_append_left _ hid) rfl]
    exact new x.id (List.mem_append_right _ (List.mem_append_left _ hid))
  have hrecord := hrecords x.id fun hm => hafter _ hid _ hm rfl
  rw [hundeclared, Rule.firstNamed_of_mem hvars hx, ← hlife] at hrecord
  exact ⟨_, kept _ _ hrecord, Rule.designated_pinned demand _ x⟩

/-- A variable that stands for itself is pinned where it is introduced. -/
theorem pins_itself {ty : Ty} {span : Span}
    (h : w.Enters final (levels + 1) path (.expr ⟨.outVar x, ty, span⟩) demand) :
    final.Pins demand.block x := by
  obtain @⟨mood, s, t, scope, loud, fresh, nodup, new, visit, kept⟩ := h
  obtain ⟨t', hrun, hlife, -⟩ := w.carryOut_of_visit fresh visit
  have hnone : s.lifetimes.get? x.id = none := new x.id List.mem_cons_self
  let lifetime := Rule.designated demand .callingMethod x
  let s₁ := s.declare x lifetime
  have hrecord : s₁.lifetimes.get? x.id = some lifetime := by
    simp [s₁, State.declare, Lifetimes.get?_insert]
  have hread : w.carryOut levels mood path (Rule.localVar x span demand) s₁ = .ok scope t' := by
    have hstep := (Plan.run_lookup ..).symm.trans hrun
    rw [hnone] at hstep
    exact hstep
  have hsettled := (Plan.run_lookup ..).symm.trans hread
  rw [hrecord] at hsettled
  have hkept : t'.lifetimes = s₁.lifetimes := by
    dsimp only at hsettled
    split at hsettled
    · exact (w.settle_cases hsettled).2.1
    · exact (w.settle_cases hsettled).2.1
  rw [← hkept, ← hlife] at hrecord
  exact ⟨_, kept _ _ hrecord, Rule.designated_pinned demand _ x⟩

/-- An expression that was entered pins the locals that it declares. -/
theorem pins_expr (hw : w.memoizes = true) (h : w.Enters final levels path (.expr e) demand)
    (hx : x ∈ (Node.expr e).declared) : final.Pins demand.block x := by
  obtain ⟨fewer, rfl, -⟩ := h.parts hw
  obtain ⟨scope, hsteady⟩ := h.steady hw
  obtain ⟨form, ty, span⟩ := e
  cases form with
  | outVar var =>
    obtain rfl := List.mem_singleton.mp hx
    exact h.pins_itself
  | call receiver callee args => exact h.pins_outVar .call hx
  | objectCreation constructor args inits => exact h.pins_outVar .creation hx
  | isPattern operand p =>
    obtain ⟨input, -, hrest⟩ := Plan.Steady.bind_iff.mp hsteady
    obtain ⟨_, hp, -⟩ := Plan.Steady.bind_iff.mp hrest
    exact Rule.pattern_pins p hp x hx
  | switch governing arms =>
    obtain ⟨a, ha, hx⟩ := List.mem_flatMap.mp hx
    obtain ⟨input, -, hrest⟩ := Plan.Steady.bind_iff.mp hsteady
    obtain ⟨scopes, harms, -⟩ := Plan.Steady.bind_iff.mp hrest
    obtain ⟨i, b, harm⟩ := harms.of_forEach ha
    obtain ⟨_, hp, -⟩ := Plan.Steady.bind_iff.mp harm
    exact Rule.pattern_pins a.pattern hp x hx
  | _ => cases hx

/-! ### Statements -/

private theorem steady_stmt (hw : w.memoizes = true) {s : Stmt}
    (h : w.Enters final levels path (.stmt s) demand) :
    ∃ fewer,
      (Rule.stmt w.setting s demand).Steady (Node.Steady w.setting fewer final) final () := by
  obtain ⟨fewer, rfl, -⟩ := h.parts hw
  obtain ⟨scope, hsteady⟩ := h.steady hw
  obtain ⟨_, hstmt, -⟩ := Plan.Steady.bind_iff.mp hsteady
  exact ⟨fewer, hstmt⟩

/-- A statement that was entered and heeds modifiers pins the locals that it declares. -/
theorem pins_stmt (hw : w.memoizes = true) {s : Stmt}
    (h : w.Enters final levels path (.stmt s) demand) (hs : (Node.stmt s).heedsModifiers = true)
    (hx : x ∈ (Node.stmt s).declared) : final.Pins ((Node.stmt s).home demand.block) x := by
  obtain ⟨fewer, hsteady⟩ := h.steady_stmt hw
  cases s with
  | declare d =>
    rw [List.mem_singleton.mp hx]
    exact Rule.declaration_pins hsteady
  | «using» resources body =>
    obtain ⟨d, hd, rfl⟩ := List.mem_map.mp hx
    obtain ⟨_, hresources, -⟩ := Plan.Steady.bind_iff.mp hsteady
    obtain ⟨_, hall⟩ := hresources.of_discard
    obtain ⟨i, _, hone⟩ := hall.of_forEach hd
    exact Rule.declaration_pins hone
  | switch governing sections =>
    obtain ⟨sec, hsec, hx⟩ := List.mem_flatMap.mp hx
    obtain ⟨p, hp, hx⟩ := List.mem_flatMap.mp hx
    obtain ⟨input, -, hsections⟩ := Plan.Steady.bind_iff.mp hsteady
    obtain ⟨_, hall⟩ := hsections.of_discard
    obtain ⟨i, _, hone⟩ := hall.of_forEach hsec
    obtain ⟨_, hlabels, -⟩ := Plan.Steady.bind_iff.mp hone
    obtain ⟨_, hlabels⟩ := hlabels.of_discard
    obtain ⟨j, _, hlabel⟩ := hlabels.of_forEach hp
    exact Rule.pattern_pins p hlabel x hx
  | foreach | tryCatch => cases hs
  | _ => cases hx

/-- The iteration variable of a loop that was entered has the scopes that the collection gives. -/
theorem iteration (hw : w.memoizes = true) {collection : Expr} {body : Stmt}
    (h : w.Enters final levels path (.stmt (.foreach x collection body)) demand) :
    ∃ fewer scope,
      Node.Steady w.setting fewer final (.expr collection) demand.forValue scope ∧
        final.get? x.id = some ⟨if x.passing.isByRef then scope else demand.block.enterBlock,
          Rule.carried x.ty scope⟩ := by
  obtain ⟨fewer, hsteady⟩ := h.steady_stmt hw
  obtain ⟨scope, ⟨_, hcollection, rfl⟩, hrest⟩ := Plan.Steady.bind_iff.mp hsteady
  obtain ⟨_, hvar, -⟩ := Plan.Steady.bind_iff.mp hrest
  exact ⟨fewer, _, hcollection, hvar.1⟩

/-- The variable of a handler of a try statement that was entered may hold what lives anywhere. -/
theorem caught (hw : w.memoizes = true) {body : List Stmt} {catches : List Catch}
    {cleanup : Option (List Stmt)}
    (h : w.Enters final levels path (.stmt (.tryCatch body catches cleanup)) demand)
    (hx : x ∈ catches.flatMap (·.var.toList)) :
    final.get? x.id = some ⟨demand.block.enterBlock, .callingMethod⟩ := by
  obtain ⟨fewer, hsteady⟩ := h.steady_stmt hw
  obtain ⟨c, hc, hx⟩ := List.mem_flatMap.mp hx
  obtain ⟨_, -, hrest⟩ := Plan.Steady.bind_iff.mp hsteady
  obtain ⟨_, hcatches, -⟩ := Plan.Steady.bind_iff.mp hrest
  obtain ⟨_, hall⟩ := hcatches.of_discard
  obtain ⟨i, _, hone⟩ := hall.of_forEach hc
  have hvar := Option.mem_toList.mp hx
  unfold Rule.handler at hone
  rw [hvar] at hone
  obtain ⟨_, hdeclared, -⟩ := Plan.Steady.bind_iff.mp hone
  exact hdeclared.1

/-- A node that was entered and heeds modifiers pins the locals that it declares. -/
theorem pins (hw : w.memoizes = true) (h : w.Enters final levels path node demand)
    (hs : node.heedsModifiers = true) (hx : x ∈ node.declared) :
    final.Pins (node.home demand.block) x := by
  cases node with
  | expr e => exact h.pins_expr hw hx
  | stmt s => exact h.pins_stmt hw hs hx

end Walker.Enters

/-- In a body whose declaring sites differ, a scoped local keeps to its block if it comes from a
declaration, a resource, a pattern or an argument, wherever that stands. The variable of a loop has
the scopes that the collection gives, and that of a handler may hold what lives anywhere: their
modifiers are not heeded. -/
theorem analyze_pins_scoped_locals {body : Body} {options : Options} (hn : body.sites.Nodup)
    {outcome : Outcome} (hr : (analyze body options).result = .ok outcome) {k : Nat} {node : Node}
    (hnode : body.Holds ⟨options.rules, body.method⟩ k node) {x : Local} (hx : x ∈ node.declared) :
    (node.heedsModifiers = true → outcome.lifetimes.Pins (node.home (Scope.nested k)) x) ∧
      (∀ collection inner, node = .stmt (.foreach x collection inner) →
        ∃ levels scope,
          Node.Steady ⟨options.rules, body.method⟩ levels outcome.lifetimes (.expr collection)
            ⟨Scope.nested k, .value, Scope.nested k⟩ scope ∧
          outcome.lifetimes.get? x.id =
            some ⟨if x.passing.isByRef then scope else Scope.nested (k + 1),
              Rule.carried x.ty scope⟩) ∧
      ∀ inner catches cleanup, node = .stmt (.tryCatch inner catches cleanup) →
        outcome.lifetimes.get? x.id = some ⟨Scope.nested (k + 1), .callingMethod⟩ := by
  let w : Walker := { setting := ⟨options.rules, body.method⟩, limit := options.maxDepth }
  obtain ⟨s, last, hwalk, -, -, hlife⟩ := w.walkBody_of_analyze_ok hr
  obtain ⟨levels, path, demand, hblock, henters⟩ := w.walkBody_enters rfl hn hwalk hnode
  rw [hlife]
  refine ⟨fun hs => ?_, ?_, ?_⟩
  · rw [← hblock]
    exact henters.pins rfl hs hx
  · rintro collection inner rfl
    obtain ⟨fewer, scope, hcollection, hrecord⟩ := henters.iteration rfl
    rw [Demand.forValue, Demand.requiring, hblock] at hcollection
    rw [hblock] at hrecord
    exact ⟨fewer, scope, hcollection, hrecord⟩
  · rintro inner catches cleanup rfl
    have hrecord := henters.caught rfl hx
    rw [hblock] at hrecord
    exact hrecord

/-- A scoped resource inside a loop over the same rows keeps to the block of its statement. -/
theorem analyze_pins_scoped_locals_resource :
    let rows : Ty := .refStruct "Rows"
    let c : Param := { name := "c", ty := rows, span := default }
    let f : Method := { name := "f", params := [c], returnTy := .void, span := default }
    let e : Expr := ⟨.param c, rows, default⟩
    let x : Local := { id := 0, name := "x", ty := rows, kind := .iteration, span := default }
    let y : Local :=
      { id := 1, name := "y", ty := rows, modifier := .scopedValue, kind := .resource,
        span := default }
    let inner : Stmt := .using [⟨y, some e⟩] .empty
    let body : Body := ⟨f, [.foreach x e inner]⟩
    body.sites.Nodup ∧ body.Holds ⟨.updated, f⟩ 1 (.stmt inner) ∧
      ∃ outcome, (analyze body {}).result = .ok outcome ∧
        outcome.lifetimes.Pins (Scope.nested 2) y := by
  intro rows c f e x y inner body
  have hn : body.sites.Nodup := by decide
  have hr : ∃ outcome, (analyze body {}).result = .ok outcome := ⟨_, rfl⟩
  have hloop : body.Holds ⟨.updated, f⟩ 0 (.stmt (.foreach x e inner)) := .stmt List.mem_cons_self
  have hinner : body.Holds ⟨.updated, f⟩ 1 (.stmt inner) :=
    .part (p := ⟨[.body], .stmt inner, true, .once .enterBlock⟩) hloop
      (List.mem_of_getElem? (i := 2) rfl)
  obtain ⟨outcome, hr⟩ := hr
  exact ⟨hn, hinner, outcome, hr,
    (analyze_pins_scoped_locals hn hr hinner List.mem_cons_self).1 rfl⟩

/-- The spans that a loop steps through are scoped, and one is returned without a complaint. -/
theorem scoped_iteration_escapes :
    let rows : Ty := .refStruct "Rows"
    let c : Param := { name := "c", ty := rows, span := default }
    let f : Method := { name := "f", params := [c], returnTy := .span .int, span := default }
    let x : Local :=
      { id := 0, name := "x", ty := .span .int, modifier := .scopedValue, kind := .iteration,
        span := default }
    let body : Body :=
      ⟨f, [.foreach x ⟨.param c, rows, default⟩ (.ret (some ⟨.localVar x, .span .int, default⟩))]⟩
    let report := analyze body {}
    body.sites.Nodup ∧ ∃ outcome, report.result = .ok outcome ∧
      outcome.lifetimes.get? x.id = some ⟨Scope.nested 1, .callingMethod⟩ ∧
      Scope.nested 1 ≠ .callingMethod ∧ report.diagnostics.toList = [] :=
  ⟨by decide, _, rfl, rfl, by decide, rfl⟩

end RefLifetime
