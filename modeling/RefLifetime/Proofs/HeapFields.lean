import RefLifetime.Proofs.Invocations

/-!
# Fields of new heap objects

What is stored in an array or in a collection on the heap has to be able to live anywhere. The
values of the fields of a new heap object are stored on the heap, too, but they are held against the
enclosing block only.
-/

namespace RefLifetime

/-- Along states of which each extends the one before, nothing is reported exactly if no step
reports anything. -/
theorem State.silent_marks_iff {marks : Nat → State} {n : Nat}
    (h : ∀ i < n, (marks i).Grows (marks (i + 1))) :
    (marks 0).Grows (marks n) ∧
      ((marks 0).Silent (marks n) ↔ ∀ i < n, (marks i).Silent (marks (i + 1))) := by
  induction n with
  | zero => exact ⟨State.persistent_grows.refl _, by simp [Silent]⟩
  | succ n ih =>
    obtain ⟨hgrows, hsilent⟩ := ih fun i hi => h i (by omega)
    have hlast := h n (by omega)
    refine ⟨State.persistent_grows.trans hgrows hlast, ?_⟩
    rw [hgrows.silent_iff hlast, hsilent]
    constructor
    · rintro ⟨hbefore, hn⟩ i hi
      by_cases hin : i = n
      · exact hin ▸ hn
      · exact hbefore i (by omega)
    · intro hall
      exact ⟨fun i hi => hall i (by omega), hall n (by omega)⟩

/-- A new array or collection on the heap whose only element is `e`. -/
inductive Expr.HoldsOnHeap (e : Expr) : Expr → Prop
  | array (id : Nat) (ty : Ty) (span : Span) : HoldsOnHeap e ⟨.arrayCreation id [] [e], ty, span⟩
  | collection {ty : Ty} (h : ty.isRefLike = false) (span : Span) :
      HoldsOnHeap e ⟨.collection [e], ty, span⟩

/-- How the value of a field is asked for: as a location if the field is a reference. -/
def FieldInit.asked (init : FieldInit) (demand : Demand) : Demand :=
  if init.field.passing.isByRef then demand.forRef else demand.forValue

namespace Walker

variable (w : Walker) {levels : Nat} {mood : Mood} {path p q : Path} {e heap : Expr}
  {demand : Demand} {s t : State} {scope : Scope}

/-- An element of a heap object is asked for a value that may be carried anywhere. -/
theorem carryOut_holder (h : e.HoldsOnHeap heap) :
    w.carryOut levels mood path (Rule.expr w.setting heap demand) s =
      Ending.andThen
        (w.visit levels mood (path ++ [Step.element 0]) (.expr e) demand.forHeap s)
        fun _ t => .ok (demand.rvalue .callingMethod) t := by
  have hrule : Rule.expr w.setting heap demand = (do
      let _ ← Plan.evaluate [.element 0] e demand.forHeap
      return demand.rvalue .callingMethod) := by
    cases h with
    | array id ty span => rfl
    | collection h span =>
      simp only [Rule.expr, h]
      rfl
  rw [hrule, carryOut_evaluate]
  rfl

/-- An expression that has been read for its value can be stored on the heap. If it answers for its
target, storing it is reported exactly if reading it was or if its value may not be carried
anywhere. -/
theorem holder_silent_iff (hq : mood.quiet = false) (h : e.HoldsOnHeap heap) (hp : s.Fresh p)
    (hs : s.Fresh q)
    (hv : w.visit levels mood p (.expr e) demand.forValue s = .ok scope t) :
    ∃ u, w.visit (levels + 1) mood q (.expr heap) demand s = .ok (demand.rvalue .callingMethod) u ∧
      (e.Accountable w.setting.rules .value →
        (s.Silent u ↔ s.Silent t ∧ scope.narrowerThan .callingMethod = false)) := by
  obtain ⟨t₁, hheap⟩ := w.visit_retargeted hp hv .callingMethod
  obtain ⟨t₂, hfree⟩ := w.visit_retargeted hp hv .unused
  obtain ⟨u₁, hstored, hsame⟩ :=
    w.visit_agrees_elsewhere 0 hp (hs.part [Step.element 0]) (fun _ => rfl) hheap
  have hrun : w.carryOut levels mood q (Rule.expr w.setting heap demand) s =
      .ok (demand.rvalue .callingMethod) u₁ := by
    rw [w.carryOut_holder h]
    exact Ending.andThen_eq_ok.mpr ⟨scope, u₁, hstored, rfl⟩
  obtain ⟨u, hu, -, hd⟩ := w.visit_of_carryOut hs hrun
  refine ⟨u, hu, fun hacc => ?_⟩
  rw [State.silent_congr hd, hsame, w.silent_iff_of_accountable hq hacc hp hheap hfree,
    w.silent_iff_of_accountable hq hacc hp hv hfree]
  -- What may be carried anywhere reaches the block as well.
  have hreach : scope.narrowerThan .callingMethod = false →
      scope.narrowerThan demand.block = false := by
    simp only [Scope.narrowerThan, Scope.lt_def, decide_eq_false_iff_not, Scope.depth]
    omega
  constructor
  · rintro ⟨hfree, hn⟩
    exact ⟨⟨hfree, hreach hn⟩, hn⟩
  · rintro ⟨⟨hfree, -⟩, hn⟩
    exact ⟨hfree, hn⟩

/-- The values of fields are read one after another. -/
theorem fieldInits_cases {inits : List FieldInit} {captured : List Scope}
    (h : w.carryOut levels mood path
      (Plan.forEach (fun i init => Rule.fieldInit w.setting.rules i init demand) inits) s =
      .ok captured t) :
    ∃ marks : Nat → State, marks 0 = s ∧ marks inits.length = t ∧
      ∀ i init, inits[i]? = some init → ∃ value,
        w.visit levels mood (path ++ [Step.init i]) (.expr init.value) (init.asked demand)
          (marks i) = .ok value (marks (i + 1)) := by
  obtain ⟨marks, hstart, hend, hsteps⟩ := Plan.forEach_cases h
  refine ⟨marks, hstart, hend, fun i init hi => ?_⟩
  obtain ⟨result, -, hrun⟩ := hsteps i init hi
  rw [Nat.zero_add] at hrun
  have hread := (w.carryOut_evaluate levels mood path [.init i] init.value (init.asked demand) _
    (marks i)).symm.trans hrun
  rw [Ending.andThen_eq_ok] at hread
  obtain ⟨value, s', hvalue, hanswer⟩ := hread
  cases hanswer
  exact ⟨value, hvalue⟩

/-- A field whose turn has not come is unremembered. -/
theorem fieldInits_fresh {inits : List FieldInit} {marks : Nat → State}
    (hsteps : ∀ i init, inits[i]? = some init → ∃ value,
      w.visit levels mood (path ++ [Step.init i]) (.expr init.value) (init.asked demand)
        (marks i) = .ok value (marks (i + 1)))
    (hs : ∀ j, (marks 0).Fresh (path ++ [Step.init j])) {i j : Nat} (hi : i ≤ inits.length)
    (hj : i ≤ j) : (marks i).Fresh (path ++ [Step.init j]) := by
  induction i with
  | zero => exact hs j
  | succ i ih =>
    obtain ⟨value, hv⟩ := hsteps i _ (List.getElem?_eq_getElem (by omega))
    have hne : Step.init i ≠ .init j := by
      intro heq
      cases heq
      omega
    exact w.fresh_sibling hne (ih (by omega) (by omega)) hv

/-- The arguments of an object creation leave its fields unremembered. -/
theorem creation_fields_fresh {constructor : Method} {args : List Argument}
    {given bound : List Actual} {s₁ s₂ : State}
    (hgiven : w.carryOut levels mood path (Rule.evaluated constructor none args demand) s =
      .ok given s₁)
    (hsite : w.carryOut levels mood path
      (Rule.callSite w.setting.rules constructor demand given) s₁ = .ok bound s₂)
    (hs : s.Fresh path) (j : Nat) : s₂.Fresh (path ++ [Step.init j]) := by
  have hargs : Stop.All (·.route.Apart [Step.init j]) (Stop.actuals none args) := by
    refine Stop.all_nil.append (Stop.all_forEach (fun i arg => ?_) args 0)
    unfold Stop.actual
    split
    · exact Stop.all_nil
    · exact Stop.all_part (Path.apart_of_step_ne [] (by simp) [] [])
  have hsites : Stop.All (·.route.Apart [Step.init j]) (Stop.outVars (given.map (·.outVar))) :=
    Stop.all_of_sites (Stop.outVars_sites _)
  have h₁ := w.carryOut_fresh (Rule.evaluated_tours constructor none args demand) hgiven hargs
    (hs.part _)
  have htours : Plan.Tours demand True (fun _ => True) [] (Stop.outVars (given.map (·.outVar)))
      (Rule.callSite w.setting.rules constructor demand given) :=
    Rule.callSite_tours w.setting.rules constructor demand given
  exact w.carryOut_fresh htours hsite hsites h₁

/-- A new object that is not ref-like may be carried anywhere, and nothing holds the values of its
fields to that. They are read one after another, each as if it was only used in the enclosing block,
and the creation reports what these readings and the call of the constructor report. The same value
as the only element of an array or of a collection on the heap is reported on top of that if it may
not be carried anywhere. -/
theorem creation_holds_fields_to_block (levels : Nat) {mood : Mood} (hq : mood.quiet = false)
    {path : Path} {constructor : Method} {args : List Argument} {inits : List FieldInit} {ty : Ty}
    (hty : ty.isRefLike = false) (span : Span) {demand : Demand} {s t : State} {scope : Scope}
    (hs : s.Fresh path)
    (hv : w.visit (levels + 1) mood path (.expr ⟨.objectCreation constructor args inits, ty, span⟩)
      demand s = .ok scope t) :
    scope = demand.rvalue .callingMethod ∧
      ∃ (given bound : List Actual) (s₁ : State) (marks : Nat → State),
        w.carryOut levels mood path (Rule.evaluated constructor none args demand) s =
          .ok given s₁ ∧
        w.carryOut levels mood path (Rule.callSite w.setting.rules constructor demand given) s₁ =
          .ok bound (marks 0) ∧
        t.lifetimes = (marks inits.length).lifetimes ∧
        (s.Silent t ↔
          s.Silent (marks 0) ∧ ∀ i < inits.length, (marks i).Silent (marks (i + 1))) ∧
        ∀ i init, inits[i]? = some init → ∃ value,
          w.visit levels mood (path ++ [Step.init i]) (.expr init.value) (init.asked demand)
            (marks i) = .ok value (marks (i + 1)) ∧
          (init.field.passing.isByRef = false → ∀ heap q, init.value.HoldsOnHeap heap →
            (marks i).Fresh q →
            ∃ u, w.visit (levels + 1) mood q (.expr heap) demand (marks i) =
                .ok (demand.rvalue .callingMethod) u ∧
              (init.value.Accountable w.setting.rules .value →
                ((marks i).Silent u ↔ (marks i).Silent (marks (i + 1)) ∧
                  value.narrowerThan .callingMethod = false))) := by
  obtain ⟨t₁, hrun, hlifetimes, hd⟩ := w.carryOut_of_visit hs hv
  obtain ⟨given, s₁, bound, s₂, captured, s₃, hgiven, hsite, hinits, -, hend⟩ :=
    w.creation_cases hrun
  obtain ⟨rfl, rfl⟩ := hend hty
  obtain ⟨marks, rfl, rfl, hsteps⟩ := w.fieldInits_cases hinits
  have hgrows (i : Nat) (hi : i < inits.length) : (marks i).Grows (marks (i + 1)) := by
    obtain ⟨value, hvalue⟩ := hsteps i _ (List.getElem?_eq_getElem hi)
    exact w.grows_of_visit hvalue
  have hstart : s.Grows (marks 0) :=
    State.persistent_grows.trans (w.carryOut_grows hgiven) (w.carryOut_grows hsite)
  obtain ⟨hrest, hsilent⟩ := State.silent_marks_iff hgrows
  refine ⟨rfl, given, bound, s₁, marks, hgiven, hsite, hlifetimes, ?_, fun i init hi => ?_⟩
  · rw [State.silent_congr hd, hstart.silent_iff hrest, hsilent]
  · obtain ⟨value, hvalue⟩ := hsteps i init hi
    refine ⟨value, hvalue, fun hbyValue heap q hheap hfresh => ?_⟩
    have hfield : (marks i).Fresh (path ++ [Step.init i]) := by
      obtain ⟨hlt, -⟩ := List.getElem?_eq_some_iff.mp hi
      exact w.fieldInits_fresh hsteps (w.creation_fields_fresh hgiven hsite hs) (Nat.le_of_lt hlt)
        (Nat.le_refl i)
    have hasked : init.asked demand = demand.forValue := by simp [FieldInit.asked, hbyValue]
    rw [hasked] at hvalue
    exact w.holder_silent_iff hq hheap hfield hfresh hvalue

/-- An object that the caller wants to be kept in the method is stored in a field of a new heap
object without a complaint. Stored in a new array, it is reported. -/
theorem creation_holds_fields_to_block_object :
    let p : Param := { name := "p", ty := .object, nonEscaping := true, span := default }
    let f : Method := { name := "f", params := [p], returnTy := .void, span := default }
    let c : Method := { name := "C", returnTy := .heap "C", span := default }
    let w : Walker := ⟨⟨.updated, f⟩, 8, true⟩
    let e : Expr := ⟨.param p, .object, default⟩
    let member : Field := { name := "v", ty := .object, container := .heap "C" }
    let creation : Expr := ⟨.objectCreation c [] [⟨member, e⟩], .heap "C", default⟩
    let array : Expr := ⟨.arrayCreation 0 [] [e], .array .object, default⟩
    let demand : Demand := ⟨.currentMethod, .value, .currentMethod⟩
    (∃ t, w.visit 8 {} [] (.expr creation) demand {} = .ok .callingMethod t ∧ State.Silent {} t) ∧
      ∃ s u, w.visit 8 {} [] (.expr array) demand s = .ok .callingMethod u ∧ ¬ s.Silent u := by
  intro p f c w e member creation array demand
  have hs : State.Fresh [] {} := fun _ _ _ => rfl
  have hv : w.visit 8 {} [] (.expr creation) demand {} =
      .ok .callingMethod (Ending.state (w.visit 8 {} [] (.expr creation) demand {})) := rfl
  have he : e.Accountable w.setting.rules .value := .intro rfl (by simp [Expr.resultParts, e])
  obtain ⟨-, given, bound, s₁, marks, hgiven, hsite, -, -, hfields⟩ :=
    w.creation_holds_fields_to_block 7 (rfl : ({} : Mood).quiet = false)
      (rfl : (Ty.heap "C").isRefLike = false) default hs hv
  cases hgiven
  have hstart : marks 0 = {} := by
    injection hsite with _ h
    exact h.symm
  obtain ⟨value, hvalue, hheap⟩ := hfields 0 ⟨member, e⟩ rfl
  obtain ⟨u, hu, hiff⟩ := hheap rfl array [] (.array 0 _ _) (by rw [hstart]; exact hs)
  refine ⟨⟨_, hv, rfl⟩, marks 0, u, hu, fun hsilent => ?_⟩
  have hn := ((hiff he).mp hsilent).2
  rw [hstart] at hvalue
  injection hvalue with hscope _
  rw [← hscope] at hn
  cases hn

end Walker

/-- A new heap object that holds an object which the caller wants to be kept in the method is
returned without a complaint, where an array or a collection of the same object is reported. -/
theorem creation_misses_confined_field :
    let p : Param := { name := "p", ty := .object, nonEscaping := true, span := default }
    let f : Method := { name := "f", params := [p], returnTy := .heap "C", span := default }
    let c : Method := { name := "C", returnTy := .heap "C", span := default }
    let e : Expr := ⟨.param p, .object, default⟩
    let member : Field := { name := "v", ty := .object, container := .heap "C" }
    let creation : Expr := ⟨.objectCreation c [] [⟨member, e⟩], .heap "C", default⟩
    let array : Expr := ⟨.arrayCreation 0 [] [e], .array .object, default⟩
    let collection : Expr := ⟨.collection [e], .heap "List", default⟩
    let findings (e : Expr) := (analyze ⟨f, [.ret (some e)]⟩ {}).diagnostics.toList.map (·.args)
    creation.ty.isReference = true ∧ findings creation = [] ∧ findings array = [["p"]] ∧
      findings collection = [["p"]] :=
  ⟨rfl, rfl, rfl, rfl⟩

end RefLifetime
