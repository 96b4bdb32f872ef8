import RefLifetime.Proofs.Target

/-!
# No silent narrowing

An expression answers for its target when every scope narrower than the target is reported. Some
forms check their own scope, others hand the target on to the parts whose scopes they join. An
expression is accountable if each form in its result positions does one or the other. The visit of
an accountable expression complains more than a visit without requirement exactly if its scope is
narrower than the target. Of any expression, accountable or not, the target changes only what is
complained about, and a wider target never makes a complaint go away.
-/

namespace RefLifetime

/-- The form checks its own scope, or hands the target on to the parts in its result positions. -/
def Form.answersFor : Mode → Form → Bool
  | .value, form =>
    match form with
    | .assignment _ _ _ | .discard => false
    | _ => true
  | .ref, form =>
    match form with
    | .literal | .defaultValue | .typeToken | .typeSize | .localVar _ | .param _ | .thisRef
    | .field _ _ | .arrayElement _ _ | .outVar _ => true
    | .conditional _ _ _ byRef => byRef
    | .conversion _ kind => kind.preservesLifetime
    | .call _ callee _ => callee.returnsByRef
    | _ => false

/-- The parts in result positions, and what is asked of them when the whole is asked for its value
or its location. -/
def Expr.resultParts (rules : Rules) (mode : Mode) (e : Expr) : List (Mode × Expr) :=
  match e.form with
  | .field (some holder) member =>
    if member.isStatic then []
    else ((member.limit? rules holder mode).map (·, holder)).toList
  | .conditional _ whenTrue whenFalse _ => [(mode, whenTrue), (mode, whenFalse)]
  | .coalesce left right => [(mode, left), (mode, right)]
  | .tuple elements => elements.map (mode, ·)
  | .conversion operand kind => if kind.preservesLifetime then [(mode, operand)] else []
  | .unary operand => if e.ty.isRefLike then [(mode, operand)] else []
  | .binary left right => if e.ty.isRefLike then [(mode, left), (mode, right)] else []
  | .switch _ arms => arms.map (mode, ·.value)
  | _ => []

/-- All forms in the result positions of the expression answer for the target. -/
inductive Expr.Accountable (rules : Rules) : Mode → Expr → Prop
  | intro {mode : Mode} {e : Expr} (form : e.form.answersFor mode = true)
      (parts : ∀ part ∈ e.resultParts rules mode, Accountable rules part.1 part.2) :
      Accountable rules mode e

namespace Expr.Accountable

variable {rules : Rules} {mode : Mode} {e : Expr}

private theorem answersFor (h : Accountable rules mode e) : e.form.answersFor mode = true := by
  cases h with
  | intro form _ => exact form

private theorem part {m : Mode} {part : Expr} (h : Accountable rules mode e)
    (hp : (m, part) ∈ e.resultParts rules mode) : Accountable rules m part := by
  cases h with
  | intro _ parts => exact parts _ hp

/-- What checks itself only as a value is accountable only as one. -/
theorem isValue (h : Accountable rules mode e) (hr : e.form.answersFor .ref = false) :
    mode = .value := by
  cases mode with
  | value => rfl
  | ref => exact absurd (hr.symm.trans h.answersFor) Bool.false_ne_true

end Expr.Accountable

namespace Scope

/-- The widest scope is narrower than nothing. -/
theorem callingMethod_narrowerThan (target : Scope) :
    callingMethod.narrowerThan target = false := by
  simp [narrowerThan, lt_def, depth]

/-- Nothing is narrower than `unused`. -/
theorem narrowerThan_unused (scope : Scope) : scope.narrowerThan unused = false := by
  have : scope.depth ≤ unused.depth := scope.depth_le_maxDepth
  simp only [narrowerThan, lt_def, decide_eq_false_iff_not]
  omega

/-- A join is too narrow if one of its parts is. -/
theorem join_narrowerThan (a b target : Scope) :
    (a.join b).narrowerThan target = (a.narrowerThan target || b.narrowerThan target) := by
  have := depth_join a b
  simp only [narrowerThan, lt_def, this, ← Bool.decide_or]
  congr 1
  exact propext (by omega)

private theorem foldl_join_narrowerThan (scopes : List Scope) (a target : Scope) :
    (scopes.foldl join a).narrowerThan target =
      (a.narrowerThan target || scopes.any (·.narrowerThan target)) := by
  induction scopes generalizing a with
  | nil => simp
  | cons scope rest ih => rw [List.foldl_cons, ih, join_narrowerThan, List.any_cons, Bool.or_assoc]

/-- The narrowest of some scopes is too narrow if one of them is. -/
theorem joinAll_narrowerThan (scopes : List Scope) (target : Scope) :
    (joinAll scopes).narrowerThan target = scopes.any (·.narrowerThan target) := by
  rw [joinAll, foldl_join_narrowerThan, callingMethod_narrowerThan, Bool.false_or]

/-- What is too narrow for a lax target is too narrow for a strict one. -/
theorem narrowerThan_of_le {scope strict lax : Scope} (hle : strict ≤ lax)
    (h : scope.narrowerThan lax = true) : scope.narrowerThan strict = true := by
  simp only [narrowerThan, lt_def, le_def, decide_eq_true_eq] at hle h ⊢
  omega

end Scope

/-! ### Rules and their targets -/

open Plan (Twin)

variable {A : Mode → Expr → Prop} {strict lax : Scope} {handed ahead : Path → Prop}

/-- A scope is reported exactly if it is narrower than the target. -/
theorem reportIf_twin (hle : strict ≤ lax) (scope answer : Scope) {finding finding' : Finding}
    (hs : finding.span = finding'.span) :
    Twin A strict lax handed
      (fun a _ more => a = answer ∧ more = scope.narrowerThan strict) ahead false
      (do Plan.reportIf (scope.narrowerThan strict) finding; return answer)
      (do Plan.reportIf (scope.narrowerThan lax) finding'; return answer) := by
  cases hn : scope.narrowerThan strict with
  | false =>
    have hl : scope.narrowerThan lax = false := by
      cases hl : scope.narrowerThan lax with
      | false => rfl
      | true => exact (Scope.narrowerThan_of_le hle hl).symm.trans hn
    rw [hl]
    exact .done ⟨rfl, rfl⟩
  | true =>
    cases hl : scope.narrowerThan lax with
    | false => exact .complain (.done ⟨rfl, rfl⟩)
    | true =>
      refine .restate hs ?_ (.done ⟨rfl, rfl⟩)
      rintro rfl
      rw [Scope.narrowerThan_unused] at hl
      cases hl

/-- Two plans for the same expression under different targets. Where `known` holds, the strict one
complains more exactly if the scope it answers with is narrower than its target. -/
def Answers (A : Mode → Expr → Prop) (strict lax : Scope) (known : Prop) (p q : Plan Scope) :
    Prop :=
  ∃ handed, Twin A strict lax handed
    (fun a _ more => known → more = a.narrowerThan strict) handed false p q

namespace Answers

variable {known known' : Prop} {p q : Plan Scope}

private theorem imp (h : Answers A strict lax known p q) (hk : known' → known) :
    Answers A strict lax known' p q := by
  obtain ⟨handed, h⟩ := h
  exact ⟨handed, h.imp fun _ _ _ h hk' => h (hk hk')⟩

/-- What does not depend on the target is alike under both. -/
theorem of_not_known (hp : p = q) (hk : ¬ known) : Answers A strict lax known p q := by
  refine ⟨fun _ => False, ?_⟩
  rw [← hp, ← bind_pure p]
  exact .skip (Plan.avoids_none p) fun a => .done fun h => absurd h hk

/-- A plan that begins without the target. -/
theorem skip {α : Type} (p : Plan α) {f g : α → Plan Scope}
    (h : ∀ a, Twin A strict lax (fun _ => False)
      (fun a _ more => known → more = a.narrowerThan strict) (fun _ => False) false (f a) (g a)) :
    Answers A strict lax known (p >>= f) (p >>= g) :=
  ⟨fun _ => False, .skip (Plan.avoids_none p) h⟩

/-- Something that may be carried anywhere, after parts that are asked for without the target. -/
theorem callingMethod {α : Type} (p : Plan α) :
    Answers A strict lax known (p >>= fun _ => pure .callingMethod)
      (p >>= fun _ => pure .callingMethod) :=
  skip p fun _ => .done fun _ => (Scope.callingMethod_narrowerThan strict).symm

end Answers

/-- A scope is reported exactly if it is narrower than the target. -/
theorem settle_twin (hle : strict ≤ lax) {known : Prop} (block : Scope) (mode : Mode)
    (scope : Scope) {finding finding' : Finding} (hs : finding.span = finding'.span) :
    Twin A strict lax handed (fun a _ more => known → more = a.narrowerThan strict) ahead false
      (Plan.settle ⟨block, mode, strict⟩ scope finding)
      (Plan.settle ⟨block, mode, lax⟩ scope finding') := by
  refine (reportIf_twin hle scope scope hs).imp ?_
  rintro a _ more ⟨rfl, hm⟩ -
  exact hm

private theorem refFinding_span (var : Local) (span : Span) (target : Scope) :
    (var.refFinding span target).span = span := by
  unfold Local.refFinding
  dsimp only
  split <;> rfl

private theorem localVar_twin (hle : strict ≤ lax) {known : Prop} (block : Scope) (mode : Mode)
    (var : Local) (span : Span) :
    Twin A strict lax handed (fun a _ more => known → more = a.narrowerThan strict) ahead false
      (Rule.localVar var span ⟨block, mode, strict⟩)
      (Rule.localVar var span ⟨block, mode, lax⟩) := by
  refine .lookup fun found => ?_
  cases found with
  | none => exact .fail _
  | some lifetime =>
    cases mode with
    | value => exact settle_twin hle block .value lifetime.value rfl
    | ref =>
      refine settle_twin hle block .ref lifetime.ref ?_
      rw [refFinding_span, refFinding_span]

private theorem param_twin (hle : strict ≤ lax) {known : Prop} (block : Scope) (mode : Mode)
    (rules : Rules) (p : Param) (span : Span) :
    Twin A strict lax handed (fun a _ more => known → more = a.narrowerThan strict) ahead false
      (Rule.param rules p span ⟨block, mode, strict⟩)
      (Rule.param rules p span ⟨block, mode, lax⟩) := by
  cases mode with
  | value => exact settle_twin hle block .value _ rfl
  | ref => exact settle_twin hle block .ref _ rfl

/-- The value of something on the stack is checked; its location is that of a temporary. -/
theorem stackValue_twin (hle : strict ≤ lax) (block : Scope) (mode : Mode) (kind : Violation)
    (e : Expr) :
    Twin A strict lax handed (fun a _ more => mode = .value → more = a.narrowerThan strict) ahead
      false (Rule.stackValue kind e ⟨block, mode, strict⟩)
      (Rule.stackValue kind e ⟨block, mode, lax⟩) := by
  cases mode with
  | value =>
    simp only [Rule.stackValue, decide_true, Bool.true_and]
    refine (reportIf_twin hle .currentMethod .currentMethod rfl).imp ?_
    rintro a _ more ⟨rfl, hm⟩ -
    exact hm
  | ref => exact .done fun h => by cases h

/-- A call checks its result if that can carry anything. -/
theorem call_answers (hle : strict ≤ lax) (block : Scope) (mode : Mode) (rules : Rules) (e : Expr)
    (receiver : Option Expr) (callee : Method) (args : List Argument) :
    Answers A strict lax (mode = .ref → callee.returnsByRef = true)
      (Rule.call rules e receiver callee args ⟨block, mode, strict⟩)
      (Rule.call rules e receiver callee args ⟨block, mode, lax⟩) := by
  have hc (given : List Actual) : Rule.callSite rules callee ⟨block, mode, strict⟩ given =
      Rule.callSite rules callee ⟨block, mode, lax⟩ given :=
    Rule.callSite_congr (by rfl) rules callee given
  refine .skip _ fun own => .skip (Plan.avoids_none _) fun given => ?_
  dsimp only
  rw [hc]
  refine .skip (Plan.avoids_none _) fun bound => ?_
  cases mode with
  | value =>
    cases e.ty.isRefLike with
    | true => exact settle_twin hle block .value _ rfl
    | false => exact .done fun _ => (Scope.callingMethod_narrowerThan strict).symm
  | ref =>
    cases callee.returnsByRef with
    | true => exact settle_twin hle block .ref _ rfl
    | false => exact .done fun h => by cases h rfl

/-- The creation of a ref struct checks its value; a location it has none. -/
theorem objectCreation_answers (hle : strict ≤ lax) (block : Scope) (mode : Mode) (rules : Rules)
    (e : Expr) (constructor : Method) (args : List Argument) (inits : List FieldInit) :
    Answers A strict lax (mode = .value)
      (Rule.objectCreation rules e constructor args inits ⟨block, mode, strict⟩)
      (Rule.objectCreation rules e constructor args inits ⟨block, mode, lax⟩) := by
  have hc (given : List Actual) : Rule.callSite rules constructor ⟨block, mode, strict⟩ given =
      Rule.callSite rules constructor ⟨block, mode, lax⟩ given :=
    Rule.callSite_congr (by rfl) rules constructor given
  refine .skip _ fun given => ?_
  rw [hc]
  refine .skip (Plan.avoids_none _) fun bound => .skip (Plan.avoids_none _) fun initialized => ?_
  cases mode with
  | value =>
    cases e.ty.isRefLike with
    | true => exact settle_twin hle block .value _ rfl
    | false => exact .done fun _ => (Scope.callingMethod_narrowerThan strict).symm
  | ref => exact .done fun h => by cases h

/-- The places of two operands. -/
def IsOperand (r : Path) : Prop := r = [.left] ∨ r = [.right]

/-- Two operands that end up in the result are handed the target. -/
theorem both_twin (block : Scope) (mode : Mode) (left right : Expr) :
    Twin A strict lax IsOperand
      (fun a _ more => A mode left ∧ A mode right → more = a.narrowerThan strict) IsOperand false
      (do
        let l ← Plan.evaluate [.left] left ⟨block, mode, strict⟩
        let r ← Plan.evaluate [.right] right ⟨block, mode, strict⟩
        return l.join r)
      (do
        let l ← Plan.evaluate [.left] left ⟨block, mode, lax⟩
        let r ← Plan.evaluate [.right] right ⟨block, mode, lax⟩
        return l.join r) := by
  have hr : ∀ r, r = [Step.right] → IsOperand r ∧ Path.Apart [.left] r := by
    rintro r rfl
    exact ⟨.inr rfl, by simp [Path.Apart]⟩
  refine .hand (.inl rfl) hr fun l more hl => ?_
  have hn : ∀ r, False → r = [Step.right] ∧ Path.Apart [.right] r := fun _ h => h.elim
  refine .hand rfl hn fun r more' hr => .done ?_
  rintro ⟨hA, hA'⟩
  rw [hr hA', hl hA, Scope.join_narrowerThan, Bool.false_or]

/-- A part whose scope is the answer is handed the target. -/
theorem operand_answers (block : Scope) (mode : Mode) (route : Path) (e : Expr) :
    Answers A strict lax (A mode e) (Plan.evaluate route e ⟨block, mode, strict⟩)
      (Plan.evaluate route e ⟨block, mode, lax⟩) := by
  have hn : ∀ r, False → r = route ∧ route.Apart r := fun _ h => h.elim
  refine ⟨(· = route), .hand rfl hn fun scope more hm => .done fun hA => ?_⟩
  rw [hm hA, Bool.false_or]

/-- Operands that are joined are handed the target of a value. -/
theorem joined_answers (block : Scope) (mode : Mode) (left right : Expr) :
    Answers A strict lax (mode = .value ∧ A mode left ∧ A mode right)
      (Rule.joined left right ⟨block, mode, strict⟩)
      (Rule.joined left right ⟨block, mode, lax⟩) := by
  cases mode with
  | value => exact ⟨IsOperand, (both_twin block .value left right).imp fun _ _ _ h hk => h hk.2⟩
  | ref => exact .of_not_known rfl fun h => by cases h.1

/-- A choice hands the target on to its branches, unless it is asked for a location that it does not
have. -/
theorem conditional_answers (block : Scope) (mode : Mode) (condition whenTrue whenFalse : Expr)
    (byRef : Bool) :
    Answers A strict lax ((mode = .ref → byRef = true) ∧ A mode whenTrue ∧ A mode whenFalse)
      (Rule.conditional condition whenTrue whenFalse byRef ⟨block, mode, strict⟩)
      (Rule.conditional condition whenTrue whenFalse byRef ⟨block, mode, lax⟩) := by
  have hr : ∀ r, IsOperand r → Path.Apart [.condition] r := by
    rintro r (rfl | rfl) <;> simp [Path.Apart]
  cases mode with
  | value =>
    refine ⟨IsOperand, .same hr fun _ => ?_⟩
    exact (both_twin block .value whenTrue whenFalse).imp fun _ _ _ h hk => h hk.2
  | ref =>
    cases byRef with
    | true =>
      refine ⟨IsOperand, .same hr fun _ => ?_⟩
      exact (both_twin block .ref whenTrue whenFalse).imp fun _ _ _ h hk => h hk.2
    | false => exact .of_not_known rfl fun h => by cases h.1 rfl

/-- The places of members from position `i` on. -/
def From (place : Nat → Path) (i : Nat) (r : Path) : Prop := ∃ j, i ≤ j ∧ r = place j

/-- After the member at position `i` come the others, apart from it. -/
theorem From.next {place : Nat → Path} (hp : ∀ i j, i ≠ j → (place i).Apart (place j)) (i : Nat)
    (r : Path) (h : From place (i + 1) r) : From place i r ∧ (place i).Apart r := by
  obtain ⟨j, hj, rfl⟩ := h
  exact ⟨⟨j, by omega, rfl⟩, hp i j (by omega)⟩

/-- The elements of a tuple are handed the target of a value. -/
theorem tuple_answers (block : Scope) (mode : Mode) (elements : List Expr) :
    Answers A strict lax (mode = .value ∧ ∀ e ∈ elements, A mode e)
      (do
        let scopes ← Plan.evaluateAll .element elements (Demand.forOperand ⟨block, mode, strict⟩)
        return Demand.rvalue ⟨block, mode, strict⟩ (Scope.joinAll scopes))
      (do
        let scopes ← Plan.evaluateAll .element elements (Demand.forOperand ⟨block, mode, lax⟩)
        return Demand.rvalue ⟨block, mode, lax⟩ (Scope.joinAll scopes)) := by
  cases mode with
  | ref => exact .of_not_known rfl fun h => by cases h.1
  | value =>
    let place (i : Nat) : Path := [.element i]
    have hp : ∀ i j, i ≠ j → (place i).Apart (place j) := by
      intro i j hne he
      cases he
      exact hne rfl
    have hstep (i : Nat) (e : Expr) (more : Bool) : Twin A strict lax (From place 0)
        (fun scope left more' =>
          left = From place (i + 1) ∧ (A .value e → more' = (more || scope.narrowerThan strict)))
        (From place i) more (Plan.evaluate (place i) e ⟨block, .value, strict⟩)
        (Plan.evaluate (place i) e ⟨block, .value, lax⟩) :=
      .hand ⟨i, Nat.le_refl i, rfl⟩ (From.next hp i) fun scope more' hm => .done ⟨rfl, hm⟩
    refine ⟨From place 0, .bind (.forEach hstep elements 0 false) fun scopes _ more hs => .done ?_⟩
    rintro ⟨-, hA⟩
    rw [hs hA, Bool.false_or]
    exact (Scope.joinAll_narrowerThan scopes strict).symm

/-- The pattern and the guard of an arm stand apart from the values of arms. -/
theorem arm_avoids (input : Scope) (i : Nat) (a : Arm) (demand : Demand) :
    (Rule.pattern [.arm i, .pattern] input demand a.pattern).Avoids
        (From (fun j => [.arm j, .body]) 0) ∧
      (Plan.evaluate? [.arm i, .guard] a.guard demand.forValue).Avoids
        (From (fun j => [.arm j, .body]) 0) := by
  constructor
  · have ht : (Rule.pattern [.arm i, .pattern] input demand a.pattern).Tours demand True
        (fun _ => True) [] (a.pattern.stops [.arm i, .pattern] false) :=
      Rule.pattern_tours trivial false rfl _ input a.pattern
    refine ht.avoids (fun _ h => by cases h) ?_
    rintro part hp r ⟨j, -, rfl⟩
    obtain ⟨step, rest, -, hr⟩ := (a.pattern.stops_below [.arm i, .pattern] false).heads part hp
    rw [hr]
    exact fun _ h => by cases h
  · cases a.guard with
    | none => trivial
    | some e =>
      refine ⟨?_, fun _ => trivial⟩
      rintro r ⟨j, -, rfl⟩ _ h
      cases h

/-- The arms of a switch are handed the target of a value; what they match is not. -/
theorem switch_answers (block : Scope) (mode : Mode) (governing : Expr) (arms : List Arm) :
    Answers A strict lax (mode = .value ∧ ∀ a ∈ arms, A mode a.value)
      (do
        let input ← Plan.evaluate [.operand] governing (Demand.forValue ⟨block, mode, strict⟩)
        let scopes ← Plan.forEach (Rule.arm input ⟨block, mode, strict⟩) arms
        return Demand.rvalue ⟨block, mode, strict⟩ (Scope.joinAll scopes))
      (do
        let input ← Plan.evaluate [.operand] governing (Demand.forValue ⟨block, mode, lax⟩)
        let scopes ← Plan.forEach (Rule.arm input ⟨block, mode, lax⟩) arms
        return Demand.rvalue ⟨block, mode, lax⟩ (Scope.joinAll scopes)) := by
  have hpat (route : Path) (input : Scope) (p : Pattern) :
      Rule.pattern route input ⟨block, mode, strict⟩ p =
        Rule.pattern route input ⟨block, mode, lax⟩ p :=
    Rule.pattern_congr (by rfl) route input p
  cases mode with
  | ref =>
    refine .of_not_known ?_ fun h => by cases h.1
    have harm (input : Scope) : Rule.arm input ⟨block, .ref, strict⟩ =
        Rule.arm input ⟨block, .ref, lax⟩ := by
      funext i a
      simp only [Rule.arm, hpat]
      rfl
    simp only [harm]
    rfl
  | value =>
    let place (i : Nat) : Path := [.arm i, .body]
    have hp : ∀ i j, i ≠ j → (place i).Apart (place j) := by
      intro i j hne he
      cases he
      exact absurd rfl hne
    have hstep (input : Scope) (i : Nat) (a : Arm) (more : Bool) : Twin A strict lax (From place 0)
        (fun scope left more' => left = From place (i + 1) ∧
          (A .value a.value → more' = (more || scope.narrowerThan strict)))
        (From place i) more (Rule.arm input ⟨block, .value, strict⟩ i a)
        (Rule.arm input ⟨block, .value, lax⟩ i a) := by
      unfold Rule.arm
      rw [hpat]
      refine .skip (arm_avoids input i a _).1 fun _ => .skip (arm_avoids input i a _).2 fun _ => ?_
      exact .hand ⟨i, Nat.le_refl i, rfl⟩ (From.next hp i) fun scope more' hm => .done ⟨rfl, hm⟩
    have hop : ∀ r, From place 0 r → Path.Apart [.operand] r := by
      rintro r ⟨j, -, rfl⟩ he
      cases he
    refine ⟨From place 0, .skip ⟨hop, fun _ => trivial⟩ fun input => ?_⟩
    refine .bind (.forEach (hstep input) arms 0 false) fun scopes _ more hs => .done ?_
    rintro ⟨-, hA⟩
    rw [hs hA, Bool.false_or]
    exact (Scope.joinAll_narrowerThan scopes strict).symm

/-- A field hands the target on to what limits it. -/
theorem field_answers (block : Scope) (mode : Mode) (rules : Rules) (holder : Expr)
    {member : Field} (hs : member.isStatic = false) :
    Answers A strict lax (∀ m, member.limit? rules holder mode = some m → A m holder)
      (Rule.field rules (some holder) member ⟨block, mode, strict⟩)
      (Rule.field rules (some holder) member ⟨block, mode, lax⟩) := by
  rw [Rule.field_eq rules holder hs, Rule.field_eq rules holder hs]
  unfold Field.holderDemand
  dsimp only
  cases hl : member.limit? rules holder mode with
  | none => exact .callingMethod _
  | some m =>
    have hn : ∀ r, False → r = [Step.receiver] ∧ Path.Apart [.receiver] r := fun _ h => h.elim
    refine ⟨(· = [.receiver]), .hand rfl hn fun scope more hm => .done ?_⟩
    intro hA
    rw [hm (hA m rfl), Bool.false_or]
    rfl

/-- The rule for an accountable expression complains exactly about scopes that are narrower than the
target. -/
theorem expr_answers (hle : strict ≤ lax) (setting : Setting) (e : Expr) (block : Scope)
    (mode : Mode) :
    Answers (Expr.Accountable setting.rules) strict lax (e.Accountable setting.rules mode)
      (Rule.expr setting e ⟨block, mode, strict⟩) (Rule.expr setting e ⟨block, mode, lax⟩) := by
  obtain ⟨form, ty, span⟩ := e
  have hcm {known : Prop} : known → false = Scope.callingMethod.narrowerThan strict :=
    fun _ => (Scope.callingMethod_narrowerThan strict).symm
  cases form with
  | literal | defaultValue | typeToken | typeSize => exact ⟨fun _ => False, .done hcm⟩
  | localVar var => exact ⟨fun _ => False, localVar_twin hle block mode var span⟩
  | param p => exact ⟨fun _ => False, param_twin hle block mode setting.rules p span⟩
  | thisRef =>
    refine ⟨fun _ => False, ?_⟩
    simp only [Rule.expr, Rule.thisRef]
    split
    · exact .fail _
    · exact param_twin hle block mode setting.rules _ span
  | field receiver member =>
    cases receiver with
    | none => exact ⟨fun _ => False, .done hcm⟩
    | some holder =>
      cases hs : member.isStatic with
      | true =>
        simp only [Rule.expr, Rule.field, hs]
        exact ⟨fun _ => False, .done hcm⟩
      | false =>
        refine (field_answers block mode setting.rules holder hs).imp fun h m hm => h.part ?_
        simp [Expr.resultParts, hs, hm]
  | arrayElement array indices =>
    exact .skip _ fun _ => .skip (Plan.avoids_none _) fun _ => .done hcm
  | call receiver callee args =>
    refine (call_answers hle block mode setting.rules _ receiver callee args).imp ?_
    rintro h rfl
    exact h.answersFor
  | objectCreation constructor args inits =>
    refine (objectCreation_answers hle block mode setting.rules _ constructor args inits).imp ?_
    intro h
    cases mode with
    | value => rfl
    | ref => cases h.answersFor
  | arrayCreation id sizes elements =>
    cases mode with
    | value => exact .skip _ fun _ => .skip (Plan.avoids_none _) fun _ => .done hcm
    | ref => exact .of_not_known rfl fun h => by cases h.answersFor
  | delegateCreation receiver method =>
    cases mode with
    | value => exact .skip _ fun _ => .done hcm
    | ref => exact .of_not_known rfl fun h => by cases h.answersFor
  | stackAlloc count elements =>
    refine .skip _ fun _ => .skip (Plan.avoids_none _) fun _ => ?_
    exact (stackValue_twin hle block mode _ _).imp fun _ _ _ h hk => h (hk.isValue rfl)
  | collection elements =>
    simp only [Rule.expr]
    split
    · refine .skip _ fun _ => ?_
      exact (stackValue_twin hle block mode _ _).imp fun _ _ _ h hk => h (hk.isValue rfl)
    · cases mode with
      | value => exact .skip _ fun _ => .done hcm
      | ref => exact .of_not_known rfl fun h => by cases h.answersFor
  | conditional condition whenTrue whenFalse byRef =>
    refine (conditional_answers block mode condition whenTrue whenFalse byRef).imp fun h => ?_
    refine ⟨?_, h.part (by simp [Expr.resultParts]), h.part (by simp [Expr.resultParts])⟩
    rintro rfl
    exact h.answersFor
  | coalesce left right =>
    refine (joined_answers block mode left right).imp fun h => ⟨h.isValue rfl, ?_, ?_⟩
    · exact h.part (by simp [Expr.resultParts])
    · exact h.part (by simp [Expr.resultParts])
  | tuple elements =>
    refine (tuple_answers block mode elements).imp fun h => ⟨h.isValue rfl, ?_⟩
    exact fun e he => h.part (by simpa [Expr.resultParts] using he)
  | conversion operand kind =>
    simp only [Rule.expr]
    split
    · exact (operand_answers block mode [.operand] operand).imp fun h =>
        h.part (by simp_all [Expr.resultParts])
    · next hk =>
      cases mode with
      | value => exact .skip _ fun _ => .done hcm
      | ref => exact .of_not_known rfl fun h => hk h.answersFor
  | unary operand =>
    simp only [Rule.expr]
    split
    · cases mode with
      | value =>
        exact (operand_answers block .value [.operand] operand).imp fun h =>
          h.part (by simp_all [Expr.resultParts])
      | ref => exact .of_not_known rfl fun h => by cases h.answersFor
    · cases mode with
      | value => exact .skip _ fun _ => .done hcm
      | ref => exact .of_not_known rfl fun h => by cases h.answersFor
  | binary left right =>
    simp only [Rule.expr]
    split
    · refine (joined_answers block mode left right).imp fun h => ⟨h.isValue rfl, ?_, ?_⟩
      · exact h.part (by simp_all [Expr.resultParts])
      · exact h.part (by simp_all [Expr.resultParts])
    · cases mode with
      | value => exact .skip _ fun _ => .skip (Plan.avoids_none _) fun _ => .done hcm
      | ref => exact .of_not_known rfl fun h => by cases h.answersFor
  | assignment left right byRef =>
    refine .of_not_known rfl fun h => ?_
    cases mode with
    | value => cases h.answersFor
    | ref => cases h.answersFor
  | compoundAssignment left right =>
    cases mode with
    | value => exact .skip _ fun _ => .skip (Plan.avoids_none _) fun _ => .done hcm
    | ref => exact .of_not_known rfl fun h => by cases h.answersFor
  | outVar var =>
    refine ⟨fun _ => False, .lookup fun found => ?_⟩
    cases found with
    | none => exact .declare (localVar_twin hle block mode var span)
    | some lifetime => exact localVar_twin hle block mode var span
  | discard =>
    refine .of_not_known rfl fun h => ?_
    cases mode with
    | value => cases h.answersFor
    | ref => cases h.answersFor
  | isPattern operand p =>
    have hp (input : Scope) : Rule.pattern [.pattern] input ⟨block, mode, strict⟩ p =
        Rule.pattern [.pattern] input ⟨block, mode, lax⟩ p := Rule.pattern_congr (by rfl) _ input p
    refine .skip _ fun input => ?_
    rw [hp]
    refine .skip (Plan.avoids_none _) fun _ => .done fun h => ?_
    obtain rfl := h.isValue rfl
    exact (Scope.callingMethod_narrowerThan strict).symm
  | switch governing arms =>
    refine (switch_answers block mode governing arms).imp fun h => ⟨h.isValue rfl, ?_⟩
    exact fun a ha => h.part (List.mem_map.mpr ⟨a, ha, rfl⟩)

/-! ### Visits and their targets -/

namespace Walker

variable (w : Walker)

private theorem tallied_visited {exact : Prop} {quiet : Bool} {s t : State} {block : Scope}
    (path : Path) (mode : Mode) :
    State.Tallied exact false s t (s.note (.visited path ⟨block, mode, strict⟩ quiet false))
      (t.note (.visited path ⟨block, mode, lax⟩ quiet false)) :=
  ⟨_, _, s.extends_note _, t.extends_note _, List.Sublist.refl _, rfl, fun _ _ => rfl,
    by simp⟩

/-- A strict visit and a lax one, of an expression that nothing is remembered about, have the same
result and record the same lifetimes. The strict visit of an accountable expression complains more
exactly if the scope is narrower than its target. -/
theorem visit_compared (hle : strict ≤ lax) (levels : Nat) (mood : Mood) (path : Path) (e : Expr)
    (block : Scope) (mode : Mode) {s t : State} (hl : s.lifetimes = t.lifetimes)
    (hs : s.Fresh path) (ht : t.Fresh path) :
    Ending.Compared (lax = .unused ∧ mood.quiet = false) (e.Accountable w.setting.rules mode)
      strict s t (w.visit levels mood path (.expr e) ⟨block, mode, strict⟩ s)
      (w.visit levels mood path (.expr e) ⟨block, mode, lax⟩ t) := by
  induction levels generalizing path e block mode s t with
  | zero =>
    rw [visit_computed w (w.remembered_fresh hs _ _), visit_computed w (w.remembered_fresh ht _ _)]
    exact .error ⟨hl, false, tallied_visited path mode⟩
  | succ levels ih =>
    rw [visit_computed w (w.remembered_fresh hs _ _), visit_computed w (w.remembered_fresh ht _ _),
      compute_succ, compute_succ]
    obtain ⟨handed, htwin⟩ := expr_answers hle w.setting e block mode
    -- Nothing is remembered inside the expression, so at first every place is still ahead.
    have hpair : State.Paired path handed handed
        (s.note (.visited path ⟨block, mode, strict⟩ mood.quiet false))
        (t.note (.visited path ⟨block, mode, lax⟩ mood.quiet false)) := by
      refine ⟨hl, fun q demand hq _ => ?_, fun _ h => h, fun r _ => ⟨?_, ?_⟩⟩
      · exact (hs q demand hq).trans (ht q demand hq).symm
      · exact fun q demand hq => hs q demand ((List.prefix_append path r).trans hq)
      · exact fun q demand hq => ht q demand ((List.prefix_append path r).trans hq)
    have hrun := htwin.run w levels path mood Iff.rfl
      (fun route e block mode s t hl hs ht => ih (path ++ route) e block mode hl hs ht) hpair
      (tallied_visited path mode)
    refine hrun.andThen ?_ fun _ _ h => h
    rintro a s' _ t' ⟨rfl, hl', left, more, hk, hm⟩
    exact .ok ⟨rfl, hl', more, hm, hk⟩

/-- Nothing narrows silently, and nothing is complained about without cause: a reporting visit of an
accountable expression reports strictly more than the same visit without a requirement if the scope
is narrower than the target, and exactly the same if it is not. -/
theorem no_silent_narrowing (levels : Nat) {mood : Mood} (hq : mood.quiet = false) (path : Path)
    {e : Expr} {mode : Mode} (he : e.Accountable w.setting.rules mode) (block target : Scope)
    {s s' : State} (hs : s.Fresh path) {scope : Scope}
    (hv : w.visit levels mood path (.expr e) ⟨block, mode, target⟩ s = .ok scope s') :
    ∃ t' added without,
      w.visit levels mood path (.expr e) ⟨block, mode, .unused⟩ s = .ok scope t' ∧
      s'.journal.diagnostics.toList = s.journal.diagnostics.toList ++ added ∧
      t'.journal.diagnostics.toList = s.journal.diagnostics.toList ++ without ∧
      (scope.narrowerThan target = true → without.length < added.length) ∧
      (scope.convertibleTo target = true → added = without) := by
  have hle : target ≤ .unused := target.depth_le_maxDepth
  have hc := w.visit_compared hle levels mood path e block mode (rfl : s.lifetimes = _) hs hs
  rw [hv] at hc
  generalize hu : w.visit levels mood path (.expr e) ⟨block, mode, .unused⟩ s = r at hc
  cases hc with
  | ok h =>
    obtain ⟨rfl, -, more, ⟨xs, ys, hxs, hys, htally⟩, hk⟩ := h
    have hmore := hk he
    refine ⟨_, _, _, rfl, hxs.diagnostics, hys.diagnostics, ?_, ?_⟩
    · intro hn
      exact htally.longer ⟨rfl, hq⟩ (hmore.trans hn)
    · intro hn
      refine htally.same ⟨rfl, hq⟩ (hmore.trans ?_)
      simp only [Scope.convertibleTo, Scope.le_def, decide_eq_true_eq] at hn
      simp only [Scope.narrowerThan, Scope.lt_def, decide_eq_false_iff_not]
      omega

/-- A choice between a local that stays in the method and a literal may not be carried to the
caller: the visit adds a diagnostic that it does not add without the requirement. -/
theorem no_silent_narrowing_choice :
    let w : Walker := ⟨⟨.updated, { name := "f", returnTy := .void, span := default }⟩, 8, true⟩
    let x : Local := { id := 0, name := "x", ty := .span .int, span := default }
    let literal : Expr := ⟨.literal, .span .int, default⟩
    let e : Expr :=
      ⟨.conditional literal ⟨.localVar x, .span .int, default⟩ literal false, .span .int, default⟩
    let s : State := { lifetimes := Lifetimes.empty.insert 0 ⟨.currentMethod, .currentMethod⟩ }
    ∃ s' t' added without,
      w.visit 8 {} [] (.expr e) ⟨.currentMethod, .value, .callingMethod⟩ s =
        .ok .currentMethod s' ∧
      w.visit 8 {} [] (.expr e) ⟨.currentMethod, .value, .unused⟩ s = .ok .currentMethod t' ∧
      s'.journal.diagnostics.toList = s.journal.diagnostics.toList ++ added ∧
      t'.journal.diagnostics.toList = s.journal.diagnostics.toList ++ without ∧
      without.length < added.length := by
  intro w x literal e s
  have hlit : literal.Accountable .updated .value :=
    .intro rfl (by simp [Expr.resultParts, literal])
  have hx : Expr.Accountable .updated .value ⟨.localVar x, .span .int, default⟩ :=
    .intro rfl (by simp [Expr.resultParts])
  have he : e.Accountable w.setting.rules .value := by
    refine .intro rfl fun part hp => ?_
    simp only [Expr.resultParts, e, List.mem_cons, List.not_mem_nil, or_false] at hp
    rcases hp with rfl | rfl
    · exact hx
    · exact hlit
  have hs : s.Fresh [] := fun _ _ _ => rfl
  have hv : w.visit 8 {} [] (.expr e) ⟨.currentMethod, .value, .callingMethod⟩ s =
      .ok .currentMethod
        (Ending.state (w.visit 8 {} [] (.expr e) ⟨.currentMethod, .value, .callingMethod⟩ s)) := rfl
  obtain ⟨t', added, without, hu, ha, hb, hn, -⟩ :=
    w.no_silent_narrowing 8 (rfl : ({} : Mood).quiet = false) [] he _ _ hs hv
  exact ⟨_, t', added, without, hv, hu, ha, hb, hn rfl⟩

/-- The target decides what is complained about and nothing else. Visits of an expression that
nothing is remembered about have one result, record the same lifetimes and give the same hints for
any two targets. The places of what is reported for the wider scope of the two include, in order,
those of what is reported for the narrower. -/
theorem target_affects_diagnostics_only (levels : Nat) (mood : Mood) (path : Path) (e : Expr)
    (block : Scope) (mode : Mode) {s : State} (hs : s.Fresh path) (target target' : Scope) :
    let r := w.visit levels mood path (.expr e) ⟨block, mode, target⟩ s
    let r' := w.visit levels mood path (.expr e) ⟨block, mode, target'⟩ s
    Ending.result r = Ending.result r' ∧
      (Ending.state r).lifetimes = (Ending.state r').lifetimes ∧
      (Ending.state r).journal.hints = (Ending.state r').journal.hints ∧
      (target ≤ target' → ∃ added added',
        (Ending.state r).journal.diagnostics.toList = s.journal.diagnostics.toList ++ added ∧
        (Ending.state r').journal.diagnostics.toList = s.journal.diagnostics.toList ++ added' ∧
        (added'.map (·.span)).Sublist (added.map (·.span))) := by
  intro r r'
  -- One of the targets is the wider one, and the first three facts hold either way round.
  by_cases hle : target ≤ target'
  · have hc := w.visit_compared hle levels mood path e block mode (rfl : s.lifetimes = _) hs hs
    obtain ⟨more, xs, ys, hxs, hys, htally⟩ := hc.tallied
    refine ⟨hc.result_eq, hc.lifetimes_eq, ?_, ?_⟩
    · rw [hxs.hints, hys.hints, htally.hints]
    · intro _
      exact ⟨_, _, hxs.diagnostics, hys.diagnostics, htally.spans⟩
  · have hge : target' ≤ target := Nat.le_of_lt (Nat.lt_of_not_le hle)
    have hc := w.visit_compared hge levels mood path e block mode (rfl : s.lifetimes = _) hs hs
    obtain ⟨more, xs, ys, hxs, hys, htally⟩ := hc.tallied
    refine ⟨hc.result_eq.symm, hc.lifetimes_eq.symm, ?_, fun h => absurd h hle⟩
    rw [hxs.hints, hys.hints, htally.hints]

/-- One of the operands stays in a nested block, the other in the method. Both are complained about
when the pair has to reach the caller, the first one only when it has to reach the method body. -/
theorem target_affects_diagnostics_only_pair :
    let w : Walker := ⟨⟨.updated, { name := "f", returnTy := .void, span := default }⟩, 8, true⟩
    let x : Local := { id := 0, name := "x", ty := .span .int, span := default }
    let y : Local := { id := 1, name := "y", ty := .span .int, span := default }
    let e : Expr :=
      ⟨.tuple [⟨.localVar x, .span .int, .onLine 1 0 1⟩, ⟨.localVar y, .span .int, .onLine 1 4 5⟩],
        .refStruct "Pair", default⟩
    let s : State :=
      { lifetimes := (Lifetimes.empty.insert 0 ⟨.block 1, .block 1⟩).insert 1
          ⟨.block 1, .currentMethod⟩ }
    s.Fresh [] ∧ Scope.callingMethod ≤ .currentMethod ∧
      ∃ strict lax added added',
        w.visit 8 {} [] (.expr e) ⟨.block 1, .value, .callingMethod⟩ s = .ok (.block 1) strict ∧
        w.visit 8 {} [] (.expr e) ⟨.block 1, .value, .currentMethod⟩ s = .ok (.block 1) lax ∧
        strict.lifetimes = lax.lifetimes ∧ strict.journal.hints = lax.journal.hints ∧
        strict.journal.diagnostics.toList = s.journal.diagnostics.toList ++ added ∧
        lax.journal.diagnostics.toList = s.journal.diagnostics.toList ++ added' ∧
        (added'.map (·.span)).Sublist (added.map (·.span)) ∧
        added.length = 2 ∧ added'.length = 1 := by
  intro w x y e s
  have hs : s.Fresh [] := fun _ _ _ => rfl
  have hle : Scope.callingMethod ≤ .currentMethod := by decide
  obtain ⟨-, hl, hh, hd⟩ := w.target_affects_diagnostics_only 8 {} [] e (.block 1) .value hs
    .callingMethod .currentMethod
  obtain ⟨added, added', ha, ha', hsub⟩ := hd hle
  refine ⟨hs, hle, _, _, added, added', rfl, rfl, hl, hh, ha, ha', hsub, ?_, ?_⟩
  · exact (congrArg List.length ha).symm
  · exact (congrArg List.length ha').symm

end Walker

end RefLifetime
