import RefLifetime.Proofs.Invocations

/-!
# Variables introduced in expressions

A pattern and an argument may introduce a variable in the middle of an expression. Unlike a local
that is declared with an initial value, such a variable does not simply take over the scope of what
it is given. A pattern drops the scope of a value that is not ref-like. An argument gives its
variable the narrowest scope that any other argument brings, whatever the type of the variable is.
-/

namespace RefLifetime

/-- What a type lets through is no wider than what comes in exactly if the type is ref-like or
there was no limit. -/
theorem Rule.le_carried_iff (ty : Ty) (input : Scope) :
    input ≤ carried ty input ↔ ty.isRefLike = true ∨ input = .callingMethod := by
  unfold carried
  cases ty.isRefLike with
  | true => simp [Scope.le_def]
  | false => simp [Scope.le_callingMethod_iff]

namespace Walker

variable (w : Walker) {levels : Nat} {mood : Mood} {path p q : Path} {e : Expr} {demand : Demand}
  {s t : State} {scope : Scope}

/-- Matching a value with a variable evaluates it and then records the variable. -/
theorem designation_cases {x : Local} {ty : Ty} {span : Span}
    (hnew : w.remembered s p demand mood.quiet = none)
    (hv : w.visit (levels + 1) mood p (.expr ⟨.isPattern e (.declaration (some x)), ty, span⟩)
      demand s = .ok scope t) :
    ∃ value s₁,
      w.visit levels mood (p ++ [Step.operand]) (.expr e) demand.forValue
        (s.note (.visited p demand mood.quiet false)) = .ok value s₁ ∧
      t = (s₁.declare x (Rule.designated demand (Rule.carried x.ty value) x)).remember p demand
        ⟨scope, mood.quiet⟩ := by
  rw [visit_computed w hnew, Ending.andThen_eq_ok] at hv
  obtain ⟨_, s₂, hrun, h⟩ := hv
  cases h
  have h := (w.carryOut_evaluate levels mood p [.operand] e demand.forValue _ _).symm.trans hrun
  rw [Ending.andThen_eq_ok] at h
  obtain ⟨value, s₁, hvalue, h⟩ := h
  cases h
  exact ⟨value, s₁, hvalue, rfl⟩

/-- An initialised local with a location of its own is recorded with the scope of the initial value,
as far as its modifier leaves it. -/
theorem declaration_of_value {x : Local} (hx : x.passing.isByRef = false) {value : Scope}
    (hvalue : w.visit levels mood (q ++ [Step.init 0]) (.expr e) demand.forValue s = .ok value t) :
    w.visit (levels + 1) mood q (.stmt (.declare ⟨x, some e⟩)) demand s =
      .ok .unused (t.declare x (Rule.pinned x.modifier demand.block ⟨demand.block, value⟩)) := by
  have hrule : Rule.node w.setting (.stmt (.declare ⟨x, some e⟩)) demand = (do
      let value ← Plan.evaluate [.init 0] e demand.forValue
      Plan.declaring x (Rule.pinned x.modifier demand.block ⟨demand.block, value⟩)
      return .unused) := by
    simp only [Rule.node, Rule.stmt, Rule.declaration, hx]
    rfl
  rw [visit_stmt, compute_succ, hrule]
  apply (w.carryOut_evaluate levels mood q [.init 0] e demand.forValue _ s).trans
  rw [hvalue]
  rfl

/-- A variable that a pattern gives to a value is recorded as a local that is declared with that
value, except for the scope of its value: that is the scope of the value only if the variable is
ref-like, and unlimited otherwise. So matching widens the scope exactly if the variable is not
ref-like and the value was limited. Both complain about the value in the same way. -/
theorem designation_versus_declaration (levels : Nat) (mood : Mood) (p q : Path) (e : Expr)
    {x : Local} (hx : x.passing.isByRef = false) (hm : x.modifier = .unscoped) (ty : Ty)
    (span : Span) {demand other : Demand} (hblock : other.block = demand.block) {s t : State}
    {scope : Scope} (hnew : w.remembered s p demand mood.quiet = none)
    (hmemo : ∀ route asked, s.memo.get? (q ++ [Step.init 0] ++ route) asked =
      s.memo.get? (p ++ [Step.operand] ++ route) asked)
    (hv : w.visit (levels + 1) mood p
      (.expr ⟨.isPattern e (.declaration (some x)), ty, span⟩) demand s = .ok scope t) :
    ∃ value s₁ u,
      w.visit levels mood (q ++ [Step.init 0]) (.expr e) other.forValue s = .ok value s₁ ∧
      w.visit (levels + 1) mood q (.stmt (.declare ⟨x, some e⟩)) other s = .ok .unused u ∧
      u.lifetimes.get? x.id = some ⟨demand.block, value⟩ ∧
      t.lifetimes.get? x.id = some ⟨demand.block, Rule.carried x.ty value⟩ ∧
      (value ≤ Rule.carried x.ty value ↔ x.ty.isRefLike = true ∨ value = .callingMethod) ∧
      (∀ id, id ≠ x.id → t.lifetimes.get? id = u.lifetimes.get? id) ∧
      t.journal.diagnostics = u.journal.diagnostics := by
  obtain ⟨value, t₁, hmatched, rfl⟩ := w.designation_cases hnew hv
  have hasked : other.forValue = demand.forValue := by
    simp only [Demand.forValue, Demand.requiring, hblock]
  -- The operand of the pattern and the initial value of the local are the same expression, read
  -- from states in which the same is on record and remembered.
  have hshadows : State.Shadows (fun _ => True) (p ++ [Step.operand]) (q ++ [Step.init 0])
      (s.note (.visited p demand mood.quiet false)) s :=
    ⟨fun _ _ h => h, fun _ _ => rfl, hmemo⟩
  have hf := w.visit_followed levels 0 mood (p ++ [Step.operand]) (q ++ [Step.init 0]) (.expr e)
    demand.forValue (fun _ _ => trivial) hshadows.follows
  rw [hmatched] at hf
  generalize hr : w.visit (levels + 0) mood (q ++ [Step.init 0]) (.expr e) demand.forValue s = r
    at hf
  cases hf with
  | behind h => exact absurd trivial h.1.choose_spec
  | @ok _ _ s₁ h =>
    rw [← hasked] at hr
    refine ⟨value, s₁, _, hr, w.declaration_of_value hx hr, ?_, ?_, Rule.le_carried_iff x.ty value,
      ?_, ?_⟩
    · simp [State.declare, Lifetimes.get?_insert, hm, Rule.pinned, hblock]
    · simp [State.declare, State.remember, Lifetimes.get?_insert, Rule.designated, hm]
    · intro id hid
      simp only [State.declare, State.remember, State.note, Lifetimes.get?_insert, hid, if_false]
      exact (h.same id trivial).symm
    · obtain ⟨ds, ht, hu⟩ := h.reports
      have hnote := congrArg Prod.fst (s.findings_visited p demand mood.quiet false)
      have hd (s : State) (lifetime : Lifetime) :
          (s.declare x lifetime).journal.diagnostics.toList = s.journal.diagnostics.toList :=
        congrArg Prod.fst (s.findings_declare x lifetime)
      apply congrArg Diagnostics.mk
      calc (t₁.declare x _).journal.diagnostics.toList
        _ = t₁.journal.diagnostics.toList := hd _ _
        _ = s.journal.diagnostics.toList ++ ds := ht.trans (congrArg (· ++ ds) hnote)
        _ = (s₁.declare x _).journal.diagnostics.toList := ((hd _ _).trans hu).symm

/-- A span of memory that stays in the method stays there when a pattern names it. -/
theorem designation_versus_declaration_span :
    let w : Walker := ⟨⟨.updated, { name := "f", returnTy := .void, span := default }⟩, 8, true⟩
    let x : Local :=
      { id := 0, name := "x", ty := .span .int, kind := .designated, span := default }
    let e : Expr := ⟨.stackAlloc ⟨.literal, .int, default⟩ [], .span .int, default⟩
    let matching : Expr := ⟨.isPattern e (.declaration (some x)), .bool, default⟩
    let demand : Demand := ⟨.block 1, .value, .block 1⟩
    ∃ scope t u, w.visit 8 {} [] (.expr matching) demand {} = .ok scope t ∧
      w.visit 8 {} [] (.stmt (.declare ⟨x, some e⟩)) demand {} = .ok .unused u ∧
      t.lifetimes.get? x.id = some ⟨.block 1, .currentMethod⟩ ∧
      u.lifetimes.get? x.id = some ⟨.block 1, .currentMethod⟩ := by
  intro w x e matching demand
  have hv : w.visit 8 {} [] (.expr matching) demand {} =
      .ok .callingMethod (Ending.state (w.visit 8 {} [] (.expr matching) demand {})) := rfl
  obtain ⟨value, s₁, u, hvalue, hu, hdeclared, hmatched, -, -, -⟩ :=
    w.designation_versus_declaration 7 {} [] [] e (rfl : x.passing.isByRef = false) rfl .bool
      default (rfl : demand.block = demand.block) rfl (fun _ _ => rfl) hv
  cases hvalue
  exact ⟨_, _, u, hv, hu, hmatched, hdeclared⟩

/-- An object that the caller wants to be kept in the method may be carried anywhere once a pattern
names it. Declared with the same object, the variable stays in the method. -/
theorem designation_widens_object :
    let p : Param := { name := "p", ty := .object, nonEscaping := true, span := default }
    let f : Method := { name := "f", params := [p], returnTy := .object, span := default }
    let w : Walker := ⟨⟨.updated, f⟩, 8, true⟩
    let x : Local := { id := 0, name := "x", ty := .object, kind := .designated, span := default }
    let e : Expr := ⟨.param p, .object, default⟩
    let demand : Demand := ⟨.currentMethod, .value, .currentMethod⟩
    x.ty = e.ty ∧ x.passing = .byValue ∧ x.modifier = .unscoped ∧ ∃ scope t u,
      w.visit 8 {} [] (.expr ⟨.isPattern e (.declaration (some x)), .bool, default⟩) demand {} =
        .ok scope t ∧
      w.visit 8 {} [] (.stmt (.declare ⟨x, some e⟩)) demand {} = .ok .unused u ∧
      t.lifetimes.get? x.id = some ⟨.currentMethod, .callingMethod⟩ ∧
      u.lifetimes.get? x.id = some ⟨.currentMethod, .currentMethod⟩ :=
  ⟨rfl, rfl, rfl, _, _, _, rfl, rfl, rfl, rfl⟩

end Walker

/-! ### Variables among the arguments -/

namespace Invocation

/-- Joining stops at a scope that is as narrow as the block, or it has come by all the scopes. -/
theorem joinUntil_covers (block : Scope) (scopes : List Scope) (found : Scope) :
    found ≤ joinUntil block found scopes ∧ (block ≤ joinUntil block found scopes ∨
      ∀ scope ∈ scopes, scope ≤ joinUntil block found scopes) := by
  induction scopes generalizing found with
  | nil => exact ⟨Nat.le_refl _, .inr fun _ h => by cases h⟩
  | cons scope rest ih =>
    have hd := Scope.depth_join found scope
    rw [joinUntil]
    split
    · next hb =>
      simp only [Scope.le_def] at hb ⊢
      exact ⟨by omega, .inl hb⟩
    · obtain ⟨hf, hr⟩ := ih (found.join scope)
      simp only [Scope.le_def] at hf hr ⊢
      exact ⟨by omega, hr.imp_right fun hr => List.forall_mem_cons.mpr ⟨by omega, hr⟩⟩

/-- Nothing limits the variables that the arguments declare exactly if no argument brings a
limit. -/
theorem inferredScope_eq_callingMethod_iff {block : Scope} (hb : Scope.callingMethod < block)
    (brought : List Contribution) :
    inferredScope block brought = .callingMethod ↔ ∀ c ∈ brought, c.scope = .callingMethod := by
  constructor
  · intro h c hc
    obtain ⟨-, hstop | hall⟩ := joinUntil_covers block (brought.map (·.scope)) .callingMethod
    · change block ≤ inferredScope block brought at hstop
      rw [h] at hstop
      exact absurd hb (Nat.not_lt_of_le hstop)
    · have hle : c.scope ≤ inferredScope block brought := hall _ (List.mem_map.mpr ⟨c, hc, rfl⟩)
      rw [h] at hle
      exact (Scope.le_callingMethod_iff _).mp hle
  · exact inferredScope_of (S := (· = .callingMethod)) rfl block

end Invocation

namespace Walker

variable (w : Walker)

/-- Held against a target, a scope is reported exactly if it is narrower. -/
theorem carryOut_settle (levels : Nat) {mood : Mood} (hq : mood.quiet = false) (path : Path)
    (demand : Demand) (scope : Scope) (finding : Finding) (s : State) :
    ∃ u, w.carryOut levels mood path (Plan.settle demand scope finding) s = .ok scope u ∧
      (s.Silent u ↔ scope.narrowerThan demand.target = false) := by
  unfold Plan.settle
  rw [carryOut_bind]
  cases h : w.carryOut levels mood path
      (Plan.reportIf (scope.narrowerThan demand.target) finding) s with
  | ok _ u => exact ⟨u, rfl, (w.carryOut_reportIf hq h).2⟩
  | error cause u =>
    unfold Plan.reportIf at h
    split at h <;> cases h

/-- Returning a local by value is reported exactly if the recorded scope of its value does not reach
the scope of a return. -/
theorem return_local_silent_iff (levels : Nat) {mood : Mood} (hq : mood.quiet = false)
    (hr : w.setting.method.returnsByRef = false) {path : Path} {x : Local} (ty : Ty) (span : Span)
    (demand : Demand) {s : State} {lifetime : Lifetime} (hs : s.Fresh path)
    (hl : s.lifetimes.get? x.id = some lifetime) :
    ∃ u, w.visit (levels + 2) mood path (.stmt (.ret (some ⟨.localVar x, ty, span⟩))) demand s =
        .ok .unused u ∧
      (s.Silent u ↔ lifetime.value.narrowerThan w.setting.rules.returnScope = false) := by
  let asked := demand.requiring .value w.setting.rules.returnScope
  let finding : Finding := ⟨.escapeVariable, span, [x.name]⟩
  have hread : w.carryOut levels mood (path ++ [Step.operand])
      (Rule.expr w.setting ⟨.localVar x, ty, span⟩ asked) s =
      w.carryOut levels mood (path ++ [Step.operand])
        (Plan.settle asked lifetime.value finding) s := by
    change (Plan.lookup _ _).run _ mood s = _
    rw [Plan.run_lookup, hl]
    rfl
  obtain ⟨u₁, hsettled, hsilent⟩ := w.carryOut_settle levels hq (path ++ [Step.operand]) asked
    lifetime.value finding s
  obtain ⟨u, hu, -, hd⟩ := w.visit_of_carryOut (hs.part _) (hread.trans hsettled)
  refine ⟨u, ?_, ?_⟩
  · have hrule : Rule.node w.setting (.stmt (.ret (some ⟨.localVar x, ty, span⟩))) demand = (do
        let _ ← Plan.evaluate [.operand] ⟨.localVar x, ty, span⟩ asked
        return .unused) := by
      simp only [Rule.node, Rule.stmt, Plan.evaluate?, hr]
      rfl
    rw [visit_stmt, compute_succ, hrule]
    apply (w.carryOut_evaluate (levels + 1) mood path [.operand] _ asked _ s).trans
    rw [hu]
    rfl
  · rw [State.silent_congr hd, hsilent]
    rfl

/-- A variable that an argument declares takes the scope that is inferred from the other arguments,
also when its type could hold nothing of theirs. That scope is unlimited only if no argument brings
a limit, and returning the variable by value is reported where the scope does not reach a return. -/
theorem outVar_takes_inferred_scope (levels : Nat) (mood : Mood) (path : Path) {e : Expr}
    {receiver : Option Expr} {callee : Method} {args : List Argument} {inits : List FieldInit}
    (hform : e.form.Invokes receiver callee args inits) {demand : Demand} {s t : State}
    {scope : Scope} (hnew : w.remembered s path demand mood.quiet = none)
    (hv : w.visit (levels + 1) mood path (.expr e) demand s = .ok scope t) :
    ∃ given s₁,
      w.carryOut levels mood path (Rule.evaluated callee receiver args demand)
        (s.note (.visited path demand mood.quiet false)) = .ok given s₁ ∧
      let brought := Invocation.contributions w.setting.rules given
      let inferred := Invocation.inferredScope demand.block brought
      (.currentMethod ≤ demand.block →
        (inferred = .callingMethod ↔ ∀ c ∈ brought, c.scope = .callingMethod)) ∧
      ∀ x : Local, Rule.firstNamed x.id (Argument.outVars receiver args) = some x →
        s₁.lifetimes.get? x.id = none → x.id ∉ FieldInit.listSites inits →
        x.modifier ≠ .scopedValue →
        t.lifetimes.get? x.id = some ⟨demand.block, inferred⟩ ∧
        ∀ (more : Nat) (loud : Mood) (q : Path) (ty : Ty) (span : Span) (asked : Demand),
          loud.quiet = false → w.setting.method.returnsByRef = false → t.Fresh q →
          ∃ u, w.visit (more + 2) loud q (.stmt (.ret (some ⟨.localVar x, ty, span⟩))) asked t =
              .ok .unused u ∧
            (t.Silent u ↔ inferred.narrowerThan w.setting.rules.returnScope = false) := by
  rw [visit_computed w hnew, Ending.andThen_eq_ok] at hv
  obtain ⟨_, t₁, hrun, h⟩ := hv
  cases h
  obtain ⟨given, s₁, hgiven, hrecords⟩ := w.invocation_records hform hrun
  refine ⟨given, s₁, hgiven, fun hblock => ?_, fun x hx hundeclared hinits hm => ?_⟩
  · exact Invocation.inferredScope_eq_callingMethod_iff (Nat.lt_of_lt_of_le (by decide) hblock) _
  · have hrecord := hrecords x.id fun hid => hinits (Stop.ids_inits_subset _ _ inits hid)
    rw [hundeclared, hx, Option.none_or, Option.map_some, Rule.designated, if_neg hm] at hrecord
    refine ⟨hrecord, fun more loud q ty span asked hq hr hfresh => ?_⟩
    exact w.return_local_silent_iff more hq hr ty span asked hfresh hrecord

/-- Of memory on the stack only a number is taken out, but returning that number is reported. -/
theorem outVar_takes_inferred_scope_number :
    let p : Param := { name := "p", ty := .span .int, span := default }
    let q : Param := { name := "q", ty := .int, passing := .byOut, span := default }
    let f : Method := { name := "f", returnTy := .int, span := default }
    let g : Method := { name := "g", params := [p, q], returnTy := .void, span := default }
    let w : Walker := ⟨⟨.updated, f⟩, 8, true⟩
    let x : Local := { id := 0, name := "x", ty := .int, kind := .designated, span := default }
    let a : Expr := ⟨.stackAlloc ⟨.literal, .int, default⟩ [], .span .int, default⟩
    let e : Expr :=
      ⟨.call none g [⟨a, .byValue⟩, ⟨⟨.outVar x, .int, default⟩, .byOut⟩], .void, default⟩
    let demand : Demand := ⟨.currentMethod, .value, .currentMethod⟩
    ∃ scope t u, w.visit 8 {} [.stmt 0] (.expr e) demand {} = .ok scope t ∧
      t.lifetimes.get? x.id = some ⟨.currentMethod, .currentMethod⟩ ∧
      w.visit 8 {} [.stmt 1] (.stmt (.ret (some ⟨.localVar x, .int, default⟩))) demand t =
        .ok .unused u ∧ ¬ t.Silent u := by
  intro p q f g w x a e demand
  have hv : w.visit 8 {} [.stmt 0] (.expr e) demand {} =
      .ok .callingMethod (Ending.state (w.visit 8 {} [.stmt 0] (.expr e) demand {})) := rfl
  obtain ⟨given, s₁, hgiven, -, hvars⟩ := w.outVar_takes_inferred_scope 7 {} [.stmt 0]
    (.call : e.form.Invokes none g _ []) rfl hv
  cases hgiven
  obtain ⟨hrecord, hreturned⟩ := hvars x rfl rfl (by simp [FieldInit.listSites]) (by decide)
  have hbefore : State.Fresh [.stmt 1] {} := fun _ _ _ => rfl
  have hfresh := hbefore.of_sameOutside (w.sameOutside_of_visit hv)
    (Path.apart_of_step_ne [] (by decide : Step.stmt 0 ≠ .stmt 1) [] [])
  obtain ⟨u, hu, hsilent⟩ := hreturned 6 {} [.stmt 1] .int default demand rfl rfl hfresh
  refine ⟨_, _, u, hv, hrecord, hu, ?_⟩
  rw [hsilent]
  decide

end Walker

/-- A method that takes a number out of memory on the stack may not return it. -/
theorem outVar_number_not_returnable :
    let p : Param := { name := "p", ty := .span .int, span := default }
    let q : Param := { name := "q", ty := .int, passing := .byOut, span := default }
    let f : Method := { name := "f", returnTy := .int, span := default }
    let g : Method := { name := "g", params := [p, q], returnTy := .void, span := default }
    let m : Local := { id := 0, name := "m", ty := .span .int, span := default }
    let x : Local := { id := 1, name := "x", ty := .int, kind := .designated, span := default }
    let a : Expr := ⟨.localVar m, .span .int, default⟩
    let memory : Expr := ⟨.stackAlloc ⟨.literal, .int, default⟩ [], .span .int, default⟩
    let body : Body :=
      ⟨f, [.declare ⟨m, some memory⟩,
        .eval ⟨.call none g [⟨a, .byValue⟩, ⟨⟨.outVar x, .int, default⟩, .byOut⟩], .void, default⟩,
        .ret (some ⟨.localVar x, .int, default⟩)]⟩
    let report := analyze body {}
    x.ty.isRefLike = false ∧ x.modifier ≠ .scopedValue ∧ ∃ outcome, report.result = .ok outcome ∧
      outcome.lifetimes.get? x.id = some ⟨.currentMethod, .currentMethod⟩ ∧
      report.diagnostics.toList.map (·.args) = [["x"]] :=
  ⟨rfl, by decide, _, rfl, rfl, rfl⟩

end RefLifetime
