import RefLifetime.Proofs.Itinerary
import RefLifetime.Proofs.Run
import RefLifetime.Proofs.Tour

/-!
# What rules keep to

A contract says what a plan may count on, the answers of visits and the lifetimes on record, and
what it owes in return. `Rule.node_honours` is the contract of every rule: scopes are taken from
those that came in, from the block and from the two outermost ones, a local that is no reference has
its location in a block of the node, and only a local, the receiver and a declared variable fail.
-/

namespace RefLifetime

/-- What a plan may count on, and what it owes. -/
structure Contract where
  /-- The part at this place may be visited so. -/
  asks : Path → Node → Demand → Mood → Prop
  /-- A visit of the node may have this answer. -/
  answers : Node → Scope → Prop
  /-- This may be on record for a local. -/
  finds : Lifetime → Prop
  /-- This may be recorded for the local. -/
  declares : Local → Lifetime → Prop
  /-- The plan may fail by itself with this cause. -/
  fails : Failure → Prop

/-- As long as visits and look-ups are met as the contract says, the plan keeps to it, and its
result satisfies `Q`. -/
def Plan.Honours {α : Type} (c : Contract) (Q : α → Prop) : Plan α → Prop
  | .done a => Q a
  | .fail cause => c.fails cause
  | .visit route node demand inner next =>
    c.asks route node demand inner ∧ ∀ scope, c.answers node scope → (next scope).Honours c Q
  | .lookup _ next =>
    ∀ found, (∀ lifetime, found = some lifetime → c.finds lifetime) → (next found).Honours c Q
  | .declare var lifetime next => c.declares var lifetime ∧ next.Honours c Q
  | .report _ next | .hint _ next => next.Honours c Q

namespace Plan.Honours

variable {α β : Type} {c : Contract} {Q : α → Prop} {R : β → Prop}

private theorem imp {Q' : α → Prop} {p : Plan α} (h : p.Honours c Q) (hQ : ∀ a, Q a → Q' a) :
    p.Honours c Q' := by
  induction p with
  | done a => exact hQ a h
  | fail cause => exact h
  | visit route node demand inner next ih => exact ⟨h.1, fun scope hs => ih scope (h.2 scope hs)⟩
  | lookup id next ih => exact fun found hf => ih found (h found hf)
  | declare var lifetime next ih => exact ⟨h.1, ih h.2⟩
  | report finding next ih => exact ih h
  | hint id next ih => exact ih h

/-- A plan is continued by another that keeps to the same contract. -/
theorem bind {p : Plan α} {f : α → Plan β} (h : p.Honours c Q)
    (hf : ∀ a, Q a → (f a).Honours c R) : (p >>= f).Honours c R := by
  change (p.bind f).Honours c R
  induction p with
  | done a => exact hf a h
  | fail cause => exact h
  | visit route node demand inner next ih => exact ⟨h.1, fun scope hs => ih scope (h.2 scope hs)⟩
  | lookup id next ih => exact fun found hl => ih found (h found hl)
  | declare var lifetime next ih => exact ⟨h.1, ih h.2⟩
  | report finding next ih => exact ih h
  | hint id next ih => exact ih h

private theorem discard {p : Plan α} (h : p.Honours c Q) :
    (Functor.discard p).Honours c fun _ => True :=
  h.bind fun _ _ => trivial

/-- Plans for the members of a list, each of which gives a result that satisfies `R`. -/
theorem forEach {f : Nat → α → Plan β} {items : List α}
    (h : ∀ i, ∀ a ∈ items, (f i a).Honours c R) (start : Nat) :
    (Plan.forEach f items start).Honours c fun bs => ∀ b ∈ bs, R b := by
  induction items generalizing start with
  | nil => exact fun _ hb => by cases hb
  | cons item rest ih =>
    refine (h start item List.mem_cons_self).bind fun b hb => ?_
    refine (ih (fun i a ha => h i a (List.mem_cons_of_mem _ ha)) (start + 1)).bind ?_
    exact fun bs hbs => List.forall_mem_cons.mpr ⟨hb, hbs⟩

/-- Plans for the members of a list, of which no result is kept. -/
theorem forAll {f : Nat → α → Plan β} {items : List α}
    (h : ∀ i, ∀ a ∈ items, (f i a).Honours c fun _ => True) :
    (Functor.discard (Plan.forEach f items)).Honours c fun _ => True :=
  (forEach h 0).discard

private theorem reportIf (violated : Bool) (finding : Finding) :
    (Plan.reportIf violated finding).Honours c fun _ => True := by
  unfold Plan.reportIf
  split <;> trivial

/-- The settled scope is the one that was found. -/
theorem settle {S : Scope → Prop} {scope : Scope} (h : S scope) (demand : Demand)
    (finding : Finding) : (Plan.settle demand scope finding).Honours c S :=
  (reportIf _ finding).bind fun _ _ => h

end Plan.Honours

/-- What holds of the states that a run goes through. Visits that the contract allows keep `Inv` and
are answered as it says, and what is on record is what it says. -/
structure Contract.Met (c : Contract) (visit : Visitor) (mood : Mood) (Inv : State → Prop) :
    Prop where
  visit : ∀ route node demand inner s, c.asks route node demand inner → Inv s →
    Ending.Meets (fun scope s' => c.answers node scope ∧ Inv s') Inv
      (visit route node demand (inner.within mood) s)
  finds : ∀ s, Inv s → ∀ id lifetime, s.lifetimes.get? id = some lifetime → c.finds lifetime
  declare : ∀ s var lifetime, Inv s → c.declares var lifetime → Inv (s.declare var lifetime)
  note : ∀ s event, Inv s → Inv (s.note event)

/-- Telling is noting, or nothing. -/
theorem Contract.Met.tell {c : Contract} {visit : Visitor} {mood : Mood} {Inv : State → Prop}
    (hm : c.Met visit mood Inv) {s : State} (hs : Inv s) (event : Event) :
    Inv (s.tell mood event) := by
  unfold State.tell
  split
  · exact hs
  · exact hm.note s event hs

/-- A run keeps what its visits and its single steps keep. -/
theorem Plan.Honours.run {α : Type} {c : Contract} {Q : α → Prop} {visit : Visitor} {mood : Mood}
    {Inv : State → Prop} (hm : c.Met visit mood Inv) {p : Plan α} (h : p.Honours c Q) {s : State}
    (hs : Inv s) :
    Ending.Meets (fun a s' => Q a ∧ Inv s') Inv (p.run visit mood s) := by
  induction p generalizing s with
  | done a => exact .ok ⟨h, hs⟩
  | fail cause => exact .error hs
  | visit route node demand inner next ih =>
    rw [run_visit]
    refine (hm.visit route node demand inner s h.1 hs).andThen ?_ fun _ h => h
    exact fun scope s' hv => ih scope (h.2 scope hv.1) hv.2
  | lookup id next ih =>
    rw [run_lookup]
    exact ih _ (h _ (hm.finds s hs id)) hs
  | declare var lifetime next ih => exact ih h.2 (hm.declare s var lifetime hs h.1)
  | report finding next ih => exact ih h (hm.tell hs _)
  | hint id next ih => exact ih h (hm.tell hs _)

/-! ### Scopes that a rule can come by -/

/-- The scopes that are there whatever comes in satisfy `S`. -/
structure Scope.Closed (S : Scope → Prop) (own : Scope) : Prop where
  callingMethod : S .callingMethod
  currentMethod : S .currentMethod
  block : S own

namespace Scope

variable {S : Scope → Prop}

/-- There is nothing to show if all scopes will do. -/
theorem closed_true (own : Scope) : Closed (fun _ => True) own := ⟨trivial, trivial, trivial⟩

/-- A join is one of its parts. -/
theorem join_of {a b : Scope} (ha : S a) (hb : S b) : S (a.join b) := by
  unfold join
  split
  · exact hb
  · exact ha

/-- What holds of the calling method and of all scopes of a list holds of their join. -/
theorem joinAll_of (hc : S .callingMethod) {scopes : List Scope} (h : ∀ scope ∈ scopes, S scope) :
    S (joinAll scopes) := by
  have hfold (found : Scope) (hf : S found) : S (scopes.foldl join found) := by
    induction scopes generalizing found with
    | nil => exact hf
    | cons scope rest ih =>
      obtain ⟨hs, hr⟩ := List.forall_mem_cons.mp h
      exact ih hr (found.join scope) (join_of hf hs)
  exact hfold _ hc

end Scope

private theorem Demand.rvalue_of {S : Scope → Prop} {demand : Demand} {value : Scope}
    (hb : S demand.block) (hv : S value) : S (demand.rvalue value) := by
  unfold rvalue
  split
  · exact hv
  · exact hb

/-- An argument that is bound to one of the parameters and declares one of the locals, if it does
either, with scopes that satisfy `S`. -/
structure Actual.Sound (S : Scope → Prop) (params : List Param) (locals : List Local)
    (a : Actual) : Prop where
  param : ∀ p, a.param = some p → p ∈ params
  outVar : ∀ var, a.outVar = some var → var ∈ locals
  value : S a.value
  ref : ∀ scope, a.ref = some scope → S scope
  isSome : a.passing.isByRef = true → a.ref.isSome = true

/-- What flows from a sound argument into the result are its own scopes. -/
theorem Actual.Sound.flows {S : Scope → Prop} {params : List Param} {locals : List Local}
    {a : Actual} (h : a.Sound S params locals) {rules : Rules} {capturesRefs : Bool}
    {scopes : List Scope} (hf : a.flows? rules capturesRefs = some scopes) :
    ∀ scope ∈ scopes, S scope := by
  intro scope hs
  obtain ⟨p, -, rfl⟩ := Option.map_eq_some_iff.mp hf
  rcases List.mem_append.mp hs with hs | hs
  · split at hs
    · obtain rfl := List.mem_singleton.mp hs
      exact h.value
    · cases hs
  · split at hs
    · next ref hr =>
      split at hs
      · obtain rfl := List.mem_singleton.mp hs
        exact h.ref _ hr
      · cases hs
    · cases hs

namespace Invocation

variable {S : Scope → Prop} {params : List Param} {locals : List Local}

/-- What arguments bring has the scopes of the arguments. -/
theorem contributions_of {rules : Rules} {given : List Actual}
    (h : ∀ a ∈ given, a.Sound S params locals) :
    ∀ brought ∈ contributions rules given, S brought.scope := by
  intro brought hb
  obtain ⟨⟨a, i⟩, ha, hb⟩ := List.mem_flatMap.mp hb
  have hs := h a (List.fst_mem_of_mem_zipIdx ha)
  change brought ∈ a.contributions rules i at hb
  unfold Actual.contributions at hb
  split at hb
  · rcases List.mem_append.mp hb with hb | hb
    · split at hb
      · obtain rfl := List.mem_singleton.mp hb
        exact hs.value
      · cases hb
    · split at hb
      · next ref hr =>
        split at hb
        · obtain rfl := List.mem_singleton.mp hb
          exact hs.ref ref hr
        · cases hb
      · cases hb
  · cases hb

/-- A join that stops early is one of the scopes that went into it. -/
theorem joinUntil_of (block : Scope) {found : Scope} (hf : S found) {scopes : List Scope}
    (h : ∀ scope ∈ scopes, S scope) : S (joinUntil block found scopes) := by
  induction scopes generalizing found with
  | nil => exact hf
  | cons scope rest ih =>
    obtain ⟨hs, hr⟩ := List.forall_mem_cons.mp h
    unfold joinUntil
    split
    · exact Scope.join_of hf hs
    · exact ih (Scope.join_of hf hs) hr

/-- The scope of a new variable is the calling method or is brought by an argument. -/
theorem inferredScope_of (hc : S .callingMethod) (block : Scope) {brought : List Contribution}
    (h : ∀ b ∈ brought, S b.scope) : S (inferredScope block brought) := by
  refine joinUntil_of block hc fun scope hs => ?_
  obtain ⟨b, hb, rfl⟩ := List.mem_map.mp hs
  exact h b hb

/-- Giving declared variables their scope keeps arguments sound. -/
theorem infer_sound {scope : Scope} (hs : S scope) {given : List Actual}
    (h : ∀ a ∈ given, a.Sound S params locals) :
    ∀ a ∈ infer scope given, a.Sound S params locals := by
  intro a ha
  obtain ⟨b, hb, rfl⟩ := List.mem_map.mp ha
  have hb := h b hb
  split
  · exact ⟨hb.param, hb.outVar, hs, hb.ref, hb.isSome⟩
  · exact hb

private theorem blame_of (i : Nat) {found : Scope × Option Nat} (hf : S found.1) {scope : Scope}
    (hs : S scope) : S (blame i found scope).1 := by
  unfold blame
  split
  · exact hs
  · exact hf

/-- The search goes on with the scope it came with, or with one that flows from an argument. -/
theorem escapeFrom_of (block : Scope) (i : Nat) {found : Scope × Option Nat} (hf : S found.1)
    {flows : List (Option (List Scope))}
    (h : ∀ scopes, some scopes ∈ flows → ∀ scope ∈ scopes, S scope) :
    S (escapeFrom block i found flows).1 := by
  induction flows generalizing i found with
  | nil => exact hf
  | cons first rest ih =>
    have hrest := fun scopes hm => h scopes (List.mem_cons_of_mem _ hm)
    cases first with
    | none => exact ih (i + 1) hf hrest
    | some scopes =>
      have hfold (found : Scope × Option Nat) (hf : S found.1) :
          S (scopes.foldl (blame i) found).1 := by
        have hs := h scopes List.mem_cons_self
        clear h
        induction scopes generalizing found with
        | nil => exact hf
        | cons scope more ihs =>
          obtain ⟨hs, hm⟩ := List.forall_mem_cons.mp hs
          exact ihs _ (blame_of i hf hs) hm
      unfold escapeFrom
      dsimp only
      split
      · exact hfold found hf
      · exact ih (i + 1) (hfold found hf) hrest

/-- The scope of a result is the calling method or that of an argument. -/
theorem escape_of (hc : S .callingMethod) (rules : Rules) (ty : Ty) (demand : Demand)
    {bound : List Actual} (h : ∀ a ∈ bound, a.Sound S params locals) :
    S (escape rules ty demand bound).1 := by
  refine escapeFrom_of demand.block 0 hc fun scopes hm => ?_
  obtain ⟨a, ha, hf⟩ := List.mem_map.mp hm
  exact (h a ha).flows hf

end Invocation

/-! ### Expressions -/

/-- The rule for such a node may fail by itself. -/
def Node.mayFail : Node → Bool
  | .expr ⟨.localVar _, _, _⟩ | .expr ⟨.thisRef, _, _⟩ | .expr ⟨.outVar _, _, _⟩ => true
  | _ => false

/-- The node opens a block around parts of it. -/
def Node.opensBlock : Node → Bool
  | .stmt (.block _) | .stmt (.uncheckedBlock _) | .stmt (.forLoop _ _ _ _)
  | .stmt (.foreach _ _ _) | .stmt (.using _ _) | .stmt (.switch _ _)
  | .stmt (.tryCatch _ _ _) => true
  | _ => false

/-- The contract of the rule for a node that stands in `block`. -/
def Node.contract (S : Scope → Prop) (block : Scope) (node : Node) : Contract where
  asks _ part _ inner := (∃ st, part = .stmt st) → inner.region = node.opens
  answers part scope := (∃ e, part = .expr e) → S scope
  finds lifetime := S lifetime.ref ∧ S lifetime.value
  declares var lifetime := var ∈ node.declared ∧ (S lifetime.ref ∧ S lifetime.value) ∧
    (var.passing = .byValue → lifetime.ref = block ∨ lifetime.ref = block.enterBlock)
  fails _ := node.mayFail = true

namespace Rule

variable {S : Scope → Prop} {block : Scope} {node : Node}

private theorem evaluate_honours (route : Path) (e : Expr) (demand : Demand) :
    (Plan.evaluate route e demand).Honours (node.contract S block) S := by
  refine ⟨?_, fun _ hs => hs ⟨e, rfl⟩⟩
  rintro ⟨st, h⟩
  cases h

private theorem evaluateQuietly_honours (route : Path) (e : Expr) (demand : Demand) :
    (Plan.evaluateQuietly route e demand).Honours (node.contract S block) S := by
  refine ⟨?_, fun _ hs => hs ⟨e, rfl⟩⟩
  rintro ⟨st, h⟩
  cases h

private theorem evaluateAll_honours (step : Nat → Step) (es : List Expr) (demand : Demand) :
    (Plan.evaluateAll step es demand).Honours (node.contract S block)
      fun scopes => ∀ scope ∈ scopes, S scope :=
  .forEach (fun i e _ => evaluate_honours [step i] e demand) 0

private theorem evaluate?_honours (route : Path) (e : Option Expr) (demand : Demand) :
    (Plan.evaluate? route e demand).Honours (node.contract S block) fun _ => True := by
  cases e with
  | none => trivial
  | some e => exact (evaluate_honours route e demand).discard

/-- A variable introduced in the middle of an expression has its location in the block. -/
theorem designate_honours {demand : Demand} (hc : Scope.Closed S demand.block)
    (hd : demand.block = block ∨ demand.block = block.enterBlock) {var : Local}
    (hv : var ∈ node.declared) {value : Scope} (hs : S value) :
    (designate var demand value).Honours (node.contract S block) fun _ => True := by
  refine ⟨⟨hv, ⟨hc.block, ?_⟩, fun _ => hd⟩, trivial⟩
  dsimp only
  split
  · exact hc.block
  · exact hs

private theorem carried_of (hc : S .callingMethod) {input : Scope} (hi : S input) (ty : Ty) :
    S (carried ty input) := by
  unfold carried
  split
  · exact hi
  · exact hc

private theorem designation_honours {demand : Demand} (hc : Scope.Closed S demand.block)
    (hd : demand.block = block ∨ demand.block = block.enterBlock) {var : Option Local}
    (hv : ∀ v, var = some v → v ∈ node.declared) {input : Scope} (hi : S input) :
    (designation var input demand).Honours (node.contract S block) fun _ => True := by
  cases var with
  | none => trivial
  | some v => exact designate_honours hc hd (hv v rfl) (carried_of hc.callingMethod hi v.ty)

mutual

/-- Matching declares the variables that the pattern names. -/
theorem pattern_honours {demand : Demand} (hc : Scope.Closed S demand.block)
    (hd : demand.block = block ∨ demand.block = block.enterBlock) (route : Path) {input : Scope}
    (hi : S input) (p : Pattern) (hp : ∀ v ∈ p.locals, v ∈ node.declared) :
    (pattern route input demand p).Honours (node.contract S block) fun _ => True := by
  match p with
  | .discard | .type _ | .slice none => trivial
  | .constant value | .relational value => exact (evaluate_honours _ value _).discard
  | .declaration var =>
    exact designation_honours hc hd (fun v h => hp v (by simp [Pattern.locals, h])) hi
  | .recursive properties var =>
    simp only [Pattern.locals, List.forall_mem_append] at hp
    refine (propertyPatterns_honours hc hd route hi 0 properties hp.1).bind fun _ _ => ?_
    exact designation_honours hc hd (fun v h => hp.2 v (by simp [h])) hi
  | .list elements var =>
    simp only [Pattern.locals, List.forall_mem_append] at hp
    refine (elementPatterns_honours hc hd route hi 0 elements hp.1).bind fun _ _ => ?_
    exact designation_honours hc hd (fun v h => hp.2 v (by simp [h])) hi
  | .slice (some rest) => exact pattern_honours hc hd _ hi rest hp
  | .not inner => exact pattern_honours hc hd _ hi inner hp
  | .and left right | .or left right =>
    simp only [Pattern.locals, List.forall_mem_append] at hp
    refine (pattern_honours hc hd _ hi left hp.1).bind fun _ _ => ?_
    exact pattern_honours hc hd _ hi right hp.2

private theorem elementPatterns_honours {demand : Demand} (hc : Scope.Closed S demand.block)
    (hd : demand.block = block ∨ demand.block = block.enterBlock) (route : Path) {input : Scope}
    (hi : S input) (i : Nat) (ps : List Pattern)
    (hp : ∀ v ∈ Pattern.listLocals ps, v ∈ node.declared) :
    (elementPatterns route input demand i ps).Honours (node.contract S block) fun _ => True := by
  match ps with
  | [] => trivial
  | p :: rest =>
    simp only [Pattern.listLocals, List.forall_mem_append] at hp
    refine (pattern_honours hc hd _ hi p hp.1).bind fun _ _ => ?_
    exact elementPatterns_honours hc hd route hi (i + 1) rest hp.2

private theorem propertyPatterns_honours {demand : Demand} (hc : Scope.Closed S demand.block)
    (hd : demand.block = block ∨ demand.block = block.enterBlock) (route : Path) {input : Scope}
    (hi : S input) (i : Nat) (ps : List Property)
    (hp : ∀ v ∈ Property.listLocals ps, v ∈ node.declared) :
    (propertyPatterns route input demand i ps).Honours (node.contract S block) fun _ => True := by
  match ps with
  | [] => trivial
  | ⟨member, p⟩ :: rest =>
    simp only [Property.listLocals, List.forall_mem_append] at hp
    have hm := carried_of hc.callingMethod hi member.ty
    refine (pattern_honours hc hd _ hm p hp.1).bind fun _ _ => ?_
    exact propertyPatterns_honours hc hd route hi (i + 1) rest hp.2

end

private theorem localVar_honours (hf : node.mayFail = true) (var : Local) (span : Span)
    (demand : Demand) : (localVar var span demand).Honours (node.contract S block) S := by
  intro found hl
  cases found with
  | none => exact hf
  | some lifetime =>
    obtain ⟨hr, hv⟩ := hl lifetime rfl
    dsimp only
    split
    · exact .settle hr demand _
    · exact .settle hv demand _

private theorem param_honours {rules : Rules} {p : Param} (hr : S (p.refScope rules))
    (hv : S (p.valueScope rules)) (span : Span) (demand : Demand) :
    (param rules p span demand).Honours (node.contract S block) S := by
  unfold param
  split
  · exact .settle hr demand _
  · exact .settle hv demand _

private theorem field_honours (hc : S .callingMethod) (rules : Rules) (receiver : Option Expr)
    (member : Field) (demand : Demand) :
    (field rules receiver member demand).Honours (node.contract S block) S := by
  cases receiver with
  | none => exact hc
  | some holder =>
    cases hs : member.isStatic with
    | true =>
      simp only [field, hs]
      exact hc
    | false =>
      rw [field_eq rules holder hs]
      refine (evaluate_honours _ holder _).bind fun scope hscope => ?_
      dsimp only
      split
      · exact hscope
      · exact hc

/-- An argument has the scopes that its visits answer with. One that declares a variable has its
location in the block. -/
theorem actual_honours (hc : Scope.Closed S block) (route : Path) (e : Expr) {p : Option Param}
    (passing : Passing) {demand : Demand} (hd : demand.block = block) {params : List Param}
    (hp : ∀ q, p = some q → q ∈ params) {locals : List Local}
    (hl : ∀ v, e.form.outVar? = some v → v ∈ locals) :
    (actual route e p passing demand).Honours (node.contract S block)
      (Actual.Sound S params locals) := by
  unfold actual
  split
  · next var he =>
    refine ⟨hp, fun v hv => hl v ?_, hc.callingMethod, fun scope hs => ?_, fun _ => rfl⟩
    · rw [he]
      exact hv
    · obtain rfl := Option.some.inj hs
      exact hd ▸ hc.block
  · split
    · refine (evaluate_honours route e _).bind fun ref hr => ?_
      refine (evaluateQuietly_honours route e _).bind fun value hv => ?_
      exact ⟨hp, by simp, hv, fun scope hs => Option.some.inj hs ▸ hr, fun _ => rfl⟩
    · next hb =>
      refine (evaluate_honours route e _).bind fun value hv => ?_
      exact ⟨hp, by simp, hv, by simp, fun h => absurd h hb⟩

/-- Arguments are evaluated within the contract of their node, and bound to parameters of the
callee. -/
theorem actuals_honours (hc : Scope.Closed S block) (callee : Method) (receiver : Option Expr)
    (args : List Argument) {demand : Demand} (hd : demand.block = block) :
    (actuals callee args demand).Honours (node.contract S block) fun given =>
      ∀ a ∈ given, a.Sound S callee.signature (Argument.outVars receiver args) := by
  refine .forEach (fun i arg ha => ?_) 0
  refine actual_honours hc _ _ _ hd (fun q hq => ?_) fun v hv => ?_
  · exact List.mem_append_right _ (List.mem_of_getElem? hq)
  · refine List.mem_filterMap.mpr ⟨arg.value, ?_, hv⟩
    exact List.mem_append_right _ (List.mem_map.mpr ⟨arg, ha, rfl⟩)

/-- The receiver of a call is evaluated within the contract of its node, and bound to the receiver
of the callee. -/
theorem receiverActual_honours (hc : Scope.Closed S block) (callee : Method)
    (receiver : Option Expr) (args : List Argument) {demand : Demand} (hd : demand.block = block) :
    (receiverActual callee receiver demand).Honours (node.contract S block) fun given =>
      ∀ a ∈ given, a.Sound S callee.signature (Argument.outVars receiver args) := by
  cases receiver with
  | none => exact fun _ h => by cases h
  | some e =>
    have hp : ∀ q, callee.receiver = some q → q ∈ callee.signature :=
      fun q hq => List.mem_append_left _ (by simp [hq])
    have hl : ∀ v, e.form.outVar? = some v → v ∈ Argument.outVars (some e) args :=
      fun v hv => List.mem_filterMap.mpr ⟨e, List.mem_append_left _ (by simp), hv⟩
    refine (actual_honours hc _ e _ hd hp hl).bind fun a ha b hb => ?_
    obtain rfl := List.mem_singleton.mp hb
    exact ha

private theorem declareOutVars_honours (hc : Scope.Closed S block) {demand : Demand}
    (hd : demand.block = block) {scope : Scope} (hs : S scope) {params : List Param}
    {given : List Actual} (hg : ∀ a ∈ given, a.Sound S params node.declared) :
    (declareOutVars demand scope given).Honours (node.contract S block) fun _ => True := by
  induction given with
  | nil => trivial
  | cons a rest ih =>
    obtain ⟨ha, hr⟩ := List.forall_mem_cons.mp hg
    unfold declareOutVars
    cases ho : a.outVar with
    | none => exact ih hr
    | some var =>
      intro found hf
      cases found with
      | none =>
        have hc : Scope.Closed S demand.block := hd.symm ▸ hc
        exact (designate_honours hc (.inl hd) (ha.outVar var ho) hs).bind fun _ _ => ih hr
      | some lifetime => exact ih hr

private theorem reportAll_honours (findings : List Finding) :
    (reportAll findings).Honours (node.contract S block) fun _ => True := by
  induction findings with
  | nil => trivial
  | cons finding rest ih => exact ih

private theorem hintAll_honours (ids : List Nat) :
    (hintAll ids).Honours (node.contract S block) fun _ => True := by
  induction ids with
  | nil => trivial
  | cons id rest ih => exact ih

/-- The check of a call site leaves its arguments sound. -/
theorem callSite_honours (hc : Scope.Closed S block) (rules : Rules) (callee : Method)
    {demand : Demand} (hd : demand.block = block) {given : List Actual}
    (hg : ∀ a ∈ given, a.Sound S callee.signature node.declared) :
    (callSite rules callee demand given).Honours (node.contract S block) fun bound =>
      ∀ a ∈ bound, a.Sound S callee.signature node.declared := by
  have hi : S (Invocation.inferredScope demand.block (Invocation.contributions rules given)) :=
    Invocation.inferredScope_of hc.callingMethod _ (Invocation.contributions_of hg)
  refine (declareOutVars_honours hc hd hi hg).bind fun _ _ => ?_
  refine (reportAll_honours _).bind fun _ _ => (reportAll_honours _).bind fun _ _ => ?_
  exact (hintAll_honours _).bind fun _ _ => Invocation.infer_sound hi hg

private theorem call_honours (hc : Scope.Closed S block) (rules : Rules) (e : Expr)
    (receiver : Option Expr) (callee : Method) (args : List Argument) {demand : Demand}
    (hd : demand.block = block) (hn : node.declared = Argument.outVars receiver args) :
    (call rules e receiver callee args demand).Honours (node.contract S block) S := by
  refine (receiverActual_honours hc callee receiver args hd).bind fun own ho => ?_
  refine (actuals_honours hc callee receiver args hd).bind fun given hg => ?_
  rw [← hn] at ho hg
  have hgiven : ∀ a ∈ own ++ given, a.Sound S callee.signature node.declared :=
    List.forall_mem_append.mpr ⟨ho, hg⟩
  refine (callSite_honours hc rules callee hd hgiven).bind fun bound hb => ?_
  dsimp only
  generalize (if demand.isRef then callee.returnsByRef else e.ty.isRefLike) = carries
  cases carries with
  | true => exact .settle (Invocation.escape_of hc.callingMethod rules e.ty demand hb) demand _
  | false => exact Demand.rvalue_of (hd ▸ hc.block) hc.callingMethod

/-- The initial value of a field is evaluated within the contract, and what is captured of it
satisfies `S`. -/
theorem fieldInit_honours (hc : S .callingMethod) (rules : Rules) (i : Nat) (init : FieldInit)
    (demand : Demand) : (fieldInit rules i init demand).Honours (node.contract S block) S := by
  refine (evaluate_honours _ init.value _).bind fun scope hs => ?_
  have hcaptured (captured : Bool) : S (if captured then scope else .callingMethod) := by
    cases captured with
    | true => exact hs
    | false => exact hc
  exact hcaptured _

private theorem objectCreation_honours (hc : Scope.Closed S block) (rules : Rules) (e : Expr)
    (constructor : Method) (args : List Argument) (inits : List FieldInit) {demand : Demand}
    (hd : demand.block = block) (hn : node.declared = Argument.outVars none args) :
    (objectCreation rules e constructor args inits demand).Honours (node.contract S block) S := by
  refine (actuals_honours hc constructor none args hd).bind fun given hg => ?_
  rw [← hn] at hg
  refine (callSite_honours hc rules constructor hd hg).bind fun bound hb => ?_
  refine (Plan.Honours.forEach (fun i init _ => fieldInit_honours hc.callingMethod rules i init
    demand) 0).bind fun initialized hi => ?_
  dsimp only
  split
  · refine .settle (Scope.join_of ?_ (Scope.joinAll_of hc.callingMethod hi)) demand _
    exact Invocation.escape_of hc.callingMethod rules e.ty demand hb
  · exact Demand.rvalue_of (hd ▸ hc.block) hc.callingMethod

private theorem stackValue_honours (hc : Scope.Closed S block) (kind : Violation) (e : Expr)
    {demand : Demand} (hd : demand.block = block) :
    (stackValue kind e demand).Honours (node.contract S block) S :=
  (Plan.Honours.reportIf _ _).bind fun _ _ => Demand.rvalue_of (hd ▸ hc.block) hc.currentMethod

private theorem joined_honours (hc : Scope.Closed S block) (left right : Expr) {demand : Demand}
    (hd : demand.block = block) : (joined left right demand).Honours (node.contract S block) S :=
  (evaluate_honours _ left _).bind fun _ hl => (evaluate_honours _ right _).bind fun _ hr =>
    Demand.rvalue_of (hd ▸ hc.block) (Scope.join_of hl hr)

private theorem readBoth_honours (hc : Scope.Closed S block) (left right : Expr) {demand : Demand}
    (hd : demand.block = block) : (readBoth left right demand).Honours (node.contract S block) S :=
  (evaluate_honours _ left _).discard.bind fun _ _ =>
    (evaluate_honours _ right _).discard.bind fun _ _ =>
      Demand.rvalue_of (hd ▸ hc.block) hc.callingMethod

private theorem conditional_honours (hc : Scope.Closed S block)
    (condition whenTrue whenFalse : Expr) (byRef : Bool) {demand : Demand}
    (hd : demand.block = block) :
    (conditional condition whenTrue whenFalse byRef demand).Honours (node.contract S block) S := by
  refine (evaluate_honours _ condition _).discard.bind fun _ _ => ?_
  split
  · refine (evaluate_honours _ whenTrue _).discard.bind fun _ _ => ?_
    exact (evaluate_honours _ whenFalse _).discard.bind fun _ _ => hd ▸ hc.block
  · refine (evaluate_honours _ whenTrue _).bind fun _ hl => ?_
    exact (evaluate_honours _ whenFalse _).bind fun _ hr => Scope.join_of hl hr

private theorem arm_honours (hc : Scope.Closed S block) {input : Scope} (hi : S input)
    {demand : Demand} (hd : demand.block = block) (i : Nat) (a : Arm)
    (ha : ∀ v ∈ a.pattern.locals, v ∈ node.declared) :
    (arm input demand i a).Honours (node.contract S block) S := by
  have hc : Scope.Closed S demand.block := hd.symm ▸ hc
  refine (pattern_honours hc (.inl hd) _ hi a.pattern ha).bind fun _ _ => ?_
  exact (evaluate?_honours _ a.guard _).bind fun _ _ => evaluate_honours _ a.value _

private theorem valueAssignment_honours (hc : Scope.Closed S block) (left right : Expr)
    {demand : Demand} (hd : demand.block = block) :
    (valueAssignment left right demand).Honours (node.contract S block) S :=
  (evaluate_honours _ left _).bind fun _ _ => (evaluate_honours _ right _).bind fun _ hv =>
    Demand.rvalue_of (hd ▸ hc.block) hv

private theorem refAssignment_honours (left right : Expr) (demand : Demand) :
    (refAssignment left right demand).Honours (node.contract S block) S := by
  refine (evaluate_honours _ left _).bind fun target _ => ?_
  refine (evaluate_honours _ right _).bind fun referent hr => ?_
  dsimp only
  split
  case' isFalse => split
  case' isFalse.isTrue =>
    refine (evaluateQuietly_honours _ left _).bind fun held _ => ?_
    refine (evaluateQuietly_honours _ right _).bind fun value _ => ?_
    refine (Plan.Honours.reportIf _ _).bind fun _ _ => ?_
  -- However the checks went, the answer is the referent or the value it holds.
  all_goals
    split
    · exact hr
    · exact evaluateQuietly_honours _ right _

end Rule

/-- The parameters that a rule can be asked about have scopes that satisfy `S`. -/
def Setting.Allows (setting : Setting) (S : Scope → Prop) (node : Node) : Prop :=
  ∀ p ∈ setting.method.receiver.toList ++ node.params,
    S (p.refScope setting.rules) ∧ S (p.valueScope setting.rules)

/-- The rule for an expression keeps to its contract and answers with a scope it can come by. -/
theorem Rule.expr_honours {S : Scope → Prop} {setting : Setting} {e : Expr} {demand : Demand}
    (hc : Scope.Closed S demand.block) (hp : setting.Allows S (.expr e)) :
    (Rule.expr setting e demand).Honours ((Node.expr e).contract S demand.block) S := by
  have hr {value : Scope} (hv : S value) : S (demand.rvalue value) := Demand.rvalue_of hc.block hv
  obtain ⟨form, ty, span⟩ := e
  cases form with
  | literal | defaultValue | typeToken | typeSize => exact hc.callingMethod
  | localVar var => exact localVar_honours rfl var span demand
  | param p =>
    obtain ⟨href, hvalue⟩ := hp p (List.mem_append_right _ (by simp [Node.params]))
    exact param_honours href hvalue span demand
  | thisRef =>
    simp only [Rule.expr, thisRef]
    split
    · rfl
    · next p h =>
      obtain ⟨href, hvalue⟩ := hp p (List.mem_append_left _ (by simp [h]))
      exact param_honours href hvalue span demand
  | field receiver member =>
    exact field_honours hc.callingMethod setting.rules receiver member demand
  | arrayElement array indices =>
    refine (evaluate_honours _ array _).discard.bind fun _ _ => ?_
    exact (evaluateAll_honours _ indices _).discard.bind fun _ _ => hc.callingMethod
  | call receiver callee args => exact call_honours hc setting.rules _ receiver callee args rfl rfl
  | objectCreation constructor args inits =>
    exact objectCreation_honours hc setting.rules _ constructor args inits rfl rfl
  | arrayCreation id sizes elements =>
    refine (evaluateAll_honours _ sizes _).discard.bind fun _ _ => ?_
    exact (evaluateAll_honours _ elements _).discard.bind fun _ _ => hr hc.callingMethod
  | delegateCreation receiver method =>
    exact (evaluate?_honours _ receiver _).bind fun _ _ => hr hc.callingMethod
  | stackAlloc count elements =>
    refine (evaluate_honours _ count _).discard.bind fun _ _ => ?_
    exact (evaluateAll_honours _ elements _).discard.bind fun _ _ => stackValue_honours hc _ _ rfl
  | collection elements =>
    simp only [Rule.expr]
    split
    · exact (evaluateAll_honours _ elements _).discard.bind fun _ _ => stackValue_honours hc _ _ rfl
    · exact (evaluateAll_honours _ elements _).discard.bind fun _ _ => hr hc.callingMethod
  | conditional condition whenTrue whenFalse byRef =>
    exact conditional_honours hc condition whenTrue whenFalse byRef rfl
  | coalesce left right => exact joined_honours hc left right rfl
  | tuple elements =>
    refine (evaluateAll_honours _ elements _).bind fun scopes hs => ?_
    exact hr (Scope.joinAll_of hc.callingMethod hs)
  | conversion operand kind =>
    simp only [Rule.expr]
    split
    · exact evaluate_honours _ operand _
    · exact (evaluate_honours _ operand _).discard.bind fun _ _ => hr hc.callingMethod
  | unary operand =>
    simp only [Rule.expr]
    split
    · exact (evaluate_honours _ operand _).bind fun _ hs => hr hs
    · exact (evaluate_honours _ operand _).discard.bind fun _ _ => hr hc.callingMethod
  | binary left right =>
    simp only [Rule.expr]
    split
    · exact joined_honours hc left right rfl
    · exact readBoth_honours hc left right rfl
  | assignment left right byRef =>
    simp only [Rule.expr]
    split
    · exact refAssignment_honours left right demand
    · exact valueAssignment_honours hc left right rfl
  | compoundAssignment left right => exact readBoth_honours hc left right rfl
  | outVar var =>
    intro found hf
    cases found with
    | none =>
      have hd : var ∈ (Node.expr ⟨.outVar var, ty, span⟩).declared := List.mem_singleton.mpr rfl
      refine (designate_honours hc (.inl rfl) hd hc.callingMethod).bind fun _ _ => ?_
      exact localVar_honours rfl var span demand
    | some lifetime => exact localVar_honours rfl var span demand
  | discard => exact hc.block
  | isPattern operand p =>
    refine (evaluate_honours _ operand _).bind fun input hi => ?_
    refine (pattern_honours hc (.inl rfl) _ hi p ?_).bind fun _ _ => hr hc.callingMethod
    exact fun _ h => h
  | switch governing arms =>
    refine (evaluate_honours _ governing _).bind fun input hi => ?_
    refine (Plan.Honours.forEach (R := S) (fun i a ha => ?_) 0).bind fun scopes hs => ?_
    · exact arm_honours hc hi rfl i a fun v hv => List.mem_flatMap.mpr ⟨a, ha, hv⟩
    · exact hr (Scope.joinAll_of hc.callingMethod hs)

/-! ### Statements -/

namespace Rule

variable {S : Scope → Prop} {block : Scope} {node : Node}

private theorem perform_honours (route : Path) (s : Stmt) (demand : Demand) {region : Region}
    (hr : region = node.opens) :
    (Plan.perform route s demand region).Honours (node.contract S block) fun _ => True :=
  ⟨fun _ => hr, fun _ _ => trivial⟩

/-- Statements are performed within the contract of the node that they belong to. -/
theorem stmts_honours (route : Path) (body : List Stmt) (demand : Demand) {region : Region}
    (hr : region = node.opens) :
    (stmts route body demand region).Honours (node.contract S block) fun _ => True :=
  .forAll fun _ s _ => perform_honours _ s demand hr

private theorem pinned_of {modifier : Modifier} {own : Scope} (hb : S own) {lifetime : Lifetime}
    (h : S lifetime.ref ∧ S lifetime.value) :
    S (pinned modifier own lifetime).ref ∧ S (pinned modifier own lifetime).value := by
  unfold pinned
  split
  · exact h
  · exact ⟨hb, h.2⟩
  · exact ⟨h.1, hb⟩

private theorem pinned_ref {modifier : Modifier} {own : Scope} {lifetime : Lifetime}
    (h : lifetime.ref = own) : (pinned modifier own lifetime).ref = own := by
  unfold pinned
  split
  · exact h
  · rfl
  · exact h

/-- A declared local that is no reference has its location in the block. -/
theorem declaration_honours {demand : Demand} (hc : Scope.Closed S demand.block) (route : Path)
    {d : Declaration} (hv : d.var ∈ node.declared)
    (hd : demand.block = block ∨ demand.block = block.enterBlock) :
    (declaration route d demand).Honours (node.contract S block) fun _ => True := by
  have hlast (lifetime : Lifetime) (hl : S lifetime.ref ∧ S lifetime.value)
      (hr : d.var.passing = .byValue → lifetime.ref = demand.block) :
      (Plan.declaring d.var (pinned d.var.modifier demand.block lifetime)).Honours
        (node.contract S block) fun _ => True := by
    refine ⟨⟨hv, pinned_of hc.block hl, fun hp => ?_⟩, trivial⟩
    rw [pinned_ref (hr hp)]
    exact hd
  unfold declaration
  cases d.init with
  | none => exact hlast _ ⟨hc.block, hc.callingMethod⟩ fun _ => rfl
  | some init =>
    dsimp only
    split
    · next hr =>
      refine (evaluate_honours route init _).bind fun ref href => ?_
      refine (evaluateQuietly_honours route init _).bind fun value hvalue => ?_
      exact hlast _ ⟨href, hvalue⟩ fun hp => by simp [Passing.isByRef, hp] at hr
    · refine (evaluate_honours route init _).bind fun value hvalue => ?_
      exact hlast _ ⟨hc.block, hvalue⟩ fun _ => rfl

private theorem iteration_honours {demand : Demand} (hc : Scope.Closed S demand.enterBlock.block)
    {var : Local} (hv : var ∈ node.declared) {collection : Scope} (hs : S collection)
    (hd : demand.block = block) :
    (iteration var collection demand.enterBlock).Honours (node.contract S block)
      fun _ => True := by
  have hi : demand.enterBlock.block = block.enterBlock := by rw [← hd]; rfl
  refine ⟨⟨hv, ⟨?_, carried_of hc.callingMethod hs var.ty⟩, fun hp => ?_⟩, trivial⟩
  · dsimp only
    split
    · exact hs
    · exact hc.block
  · have hr : var.passing.isByRef = false := by simp [Passing.isByRef, hp]
    simp only [hr]
    exact .inr hi

private theorem switchSection_honours {demand : Demand}
    (hc : Scope.Closed S demand.enterBlock.block) (ho : node.opens = .checked) {input : Scope}
    (hi : S input) (hd : demand.block = block) (i : Nat) (s : Section)
    (hs : ∀ v ∈ s.labels.flatMap (·.locals), v ∈ node.declared) :
    (switchSection input demand.enterBlock i s).Honours (node.contract S block)
      fun _ => True := by
  have hin : demand.enterBlock.block = block.enterBlock := by rw [← hd]; rfl
  refine (Plan.Honours.forAll fun j p hp => ?_).bind fun _ _ => ?_
  · refine pattern_honours hc (.inr hin) _ hi p fun v hv => hs v ?_
    exact List.mem_flatMap.mpr ⟨p, hp, hv⟩
  · refine (evaluate?_honours _ s.guard _).bind fun _ _ => ?_
    exact stmts_honours [.arm i] s.body _ ho.symm

private theorem handler_honours {demand : Demand} (hc : Scope.Closed S demand.enterBlock.block)
    (ho : node.opens = .checked) (hd : demand.block = block) (i : Nat) (c : Catch)
    (hv : ∀ v, c.var = some v → v ∈ node.declared) :
    (handler demand.enterBlock i c).Honours (node.contract S block) fun _ => True := by
  have hin : demand.enterBlock.block = block.enterBlock := by rw [← hd]; rfl
  have hrest : Plan.Honours (node.contract S block) (fun _ => True) (do
      Plan.evaluate? [.arm i, .guard] c.filter demand.enterBlock.forValue
      stmts [.arm i] c.body demand.enterBlock) :=
    (evaluate?_honours _ c.filter _).bind fun _ _ => stmts_honours [.arm i] c.body _ ho.symm
  unfold handler
  cases hvar : c.var with
  | none => exact hrest
  | some var =>
    refine ⟨⟨hv var hvar, ⟨hc.block, hc.callingMethod⟩, fun _ => .inr hin⟩, hrest⟩

end Rule

/-- The rule for a statement keeps to its contract. -/
theorem Rule.stmt_honours {S : Scope → Prop} (setting : Setting) (s : Stmt) {demand : Demand}
    (hc : Scope.Closed S demand.block)
    (hi : (Node.stmt s).opensBlock = true → Scope.Closed S demand.enterBlock.block) :
    (Rule.stmt setting s demand).Honours ((Node.stmt s).contract S demand.block)
      fun _ => True := by
  cases s with
  | block body => exact stmts_honours [] body _ rfl
  | uncheckedBlock body => exact stmts_honours [] body _ rfl
  | declare d => exact declaration_honours hc _ (List.mem_singleton.mpr rfl) (.inl rfl)
  | eval value | yieldReturn value => exact (evaluate_honours _ value _).discard
  | ret value | throw value => exact evaluate?_honours _ value _
  | ite condition whenTrue whenFalse =>
    refine (evaluate_honours _ condition _).discard.bind fun _ _ => ?_
    refine (perform_honours _ whenTrue _ rfl).bind fun _ _ => ?_
    cases whenFalse with
    | none => trivial
    | some other => exact perform_honours _ other _ rfl
  | whileLoop condition body | doLoop condition body =>
    refine (evaluate_honours _ condition _).discard.bind fun _ _ => ?_
    exact perform_honours _ body _ rfl
  | forLoop inits condition increments body =>
    refine (Plan.Honours.forAll fun _ s _ => perform_honours _ s _ rfl).bind fun _ _ => ?_
    refine (evaluate?_honours _ condition _).bind fun _ _ => ?_
    refine (evaluateAll_honours _ increments _).discard.bind fun _ _ => ?_
    exact perform_honours _ body _ rfl
  | foreach var collection body =>
    refine (evaluate_honours _ collection _).bind fun scope hs => ?_
    refine (iteration_honours (hi rfl) (List.mem_singleton.mpr rfl) hs rfl).bind fun _ _ => ?_
    exact perform_honours _ body _ rfl
  | «using» resources body =>
    refine (Plan.Honours.forAll fun i d hd => ?_).bind fun _ _ => ?_
    · exact declaration_honours (hi rfl) _ (List.mem_map.mpr ⟨d, hd, rfl⟩) (.inr rfl)
    · exact perform_honours _ body _ rfl
  | switch governing sections =>
    refine (evaluate_honours _ governing _).bind fun input hinput => ?_
    refine .forAll fun i s hs => ?_
    refine switchSection_honours (hi rfl) rfl hinput rfl i s fun v hv => ?_
    exact List.mem_flatMap.mpr ⟨s, hs, hv⟩
  | tryCatch body catches cleanup =>
    refine (stmts_honours [.body] body _ rfl).bind fun _ _ => ?_
    refine (Plan.Honours.forAll fun i c hm => ?_).bind fun _ _ => ?_
    · refine handler_honours (hi rfl) rfl rfl i c fun v hv => List.mem_flatMap.mpr ⟨c, hm, ?_⟩
      simp [hv]
    · cases cleanup with
      | none => trivial
      | some final => exact stmts_honours [.cleanup] final _ rfl
  | «break» | «continue» | empty => trivial

/-- Every rule keeps to its contract. -/
theorem Rule.node_honours {S : Scope → Prop} {setting : Setting} {node : Node} {demand : Demand}
    (hc : Scope.Closed S demand.block)
    (hi : node.opensBlock = true → Scope.Closed S demand.enterBlock.block)
    (hp : setting.Allows S node) :
    (Rule.node setting node demand).Honours (node.contract S demand.block)
      fun scope => (∃ e, node = .expr e) → S scope := by
  cases node with
  | expr e => exact (Rule.expr_honours hc hp).imp fun _ hs _ => hs
  | stmt s =>
    refine (Rule.stmt_honours setting s hc hi).bind fun _ _ => ?_
    rintro ⟨e, h⟩
    cases h

end RefLifetime
