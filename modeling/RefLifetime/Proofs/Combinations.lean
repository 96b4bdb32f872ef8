import RefLifetime.Proofs.Contributions
import RefLifetime.Proofs.Reading

/-!
# Combined values

Some forms of expressions hand on the values of their operands: choices, tuples, operators on ref
structs, conversions that keep the operand. `Expr.leaves` are the expressions at the ends of such a
combination. A combination may be carried as far as its narrowest leaf, and what is reported are the
leaves that fall short of the demand, each once and from left to right
(`Walker.combination_reads_leaves`).
-/

namespace RefLifetime

/-! ### Leaves -/

mutual

/-- The expressions whose values a combination hands on, from left to right. Anything else is its
own leaf. -/
def Expr.leaves : Expr → List Expr
  | ⟨form, ty, span⟩ => form.leaves ⟨form, ty, span⟩
termination_by structural e => e

/-- The leaves of the expression `self`, which has the given form. -/
def Form.leaves (self : Expr) : Form → List Expr
  | .conditional _ whenTrue whenFalse _ => whenTrue.leaves ++ whenFalse.leaves
  | .coalesce left right | .binary left right => left.leaves ++ right.leaves
  | .tuple elements => Expr.listLeaves elements
  | .conversion operand _ | .unary operand => operand.leaves
  | .switch _ arms => Arm.listLeaves arms
  | _ => [self]
termination_by structural form => form

/-- The leaves of all expressions of a list. -/
def Expr.listLeaves : List Expr → List Expr
  | [] => []
  | e :: rest => e.leaves ++ Expr.listLeaves rest
termination_by structural es => es

/-- The leaves of the values of all arms. -/
def Arm.listLeaves : List Arm → List Expr
  | [] => []
  | ⟨_, _, value⟩ :: rest => value.leaves ++ Arm.listLeaves rest
termination_by structural arms => arms

end

private theorem Expr.listLeaves_eq (es : List Expr) :
    Expr.listLeaves es = es.flatMap (·.leaves) := by
  induction es with
  | nil => rfl
  | cons e rest ih => rw [Expr.listLeaves, ih, List.flatMap_cons]

private theorem Arm.listLeaves_eq (arms : List Arm) :
    Arm.listLeaves arms = arms.flatMap (·.value.leaves) := by
  induction arms with
  | nil => rfl
  | cons arm rest ih =>
    obtain ⟨pattern, guard, value⟩ := arm
    rw [Arm.listLeaves, ih, List.flatMap_cons]

namespace Expr

/-- How far the value of a leaf may be carried. -/
def leafScope (rules : Rules) (recorded : Lifetimes) (leaf : Expr) : Scope :=
  match leaf.form with
  | .localVar var => ((recorded.get? var.id).map (·.value)).getD .callingMethod
  | .param p => p.valueScope rules
  | .stackAlloc _ _ => .currentMethod
  | _ => .callingMethod

/-- What is found when a leaf falls short of a demand. -/
def leafFinding (leaf : Expr) : Finding :=
  match leaf.form with
  | .localVar var => ⟨.escapeVariable, leaf.span, [var.name]⟩
  | .param p => ⟨.escapeVariable, leaf.span, [p.name]⟩
  | _ => ⟨.escapeStackAlloc, leaf.span, [leaf.ty.name]⟩

/-- The local that a leaf names, if it names one, is on record. -/
def IsRecorded (recorded : Lifetimes) (leaf : Expr) : Prop :=
  ∀ var, leaf.form = .localVar var → recorded.contains var.id = true

/-- A combination of literals, locals, parameters and stack allocations, with at most the given
number of levels. -/
inductive Combination : Nat → Expr → Prop
  | literal {n : Nat} {ty : Ty} {span : Span} : Combination (n + 1) ⟨.literal, ty, span⟩
  | defaultValue {n : Nat} {ty : Ty} {span : Span} : Combination (n + 1) ⟨.defaultValue, ty, span⟩
  | localVar {n : Nat} {var : Local} {ty : Ty} {span : Span} :
    Combination (n + 1) ⟨.localVar var, ty, span⟩
  | param {n : Nat} {p : Param} {ty : Ty} {span : Span} : Combination (n + 1) ⟨.param p, ty, span⟩
  | stackAlloc {n : Nat} {count : Expr} {elements : List Expr} {ty : Ty} {span : Span}
    (hcount : count.form = .literal) (helements : ∀ e ∈ elements, e.form = .literal) :
    Combination (n + 2) ⟨.stackAlloc count elements, ty, span⟩
  | conditional {n : Nat} {condition whenTrue whenFalse : Expr} {byRef : Bool} {ty : Ty}
    {span : Span} (hcondition : condition.form = .literal) (htrue : Combination n whenTrue)
    (hfalse : Combination n whenFalse) :
    Combination (n + 1) ⟨.conditional condition whenTrue whenFalse byRef, ty, span⟩
  | coalesce {n : Nat} {left right : Expr} {ty : Ty} {span : Span} (hleft : Combination n left)
    (hright : Combination n right) : Combination (n + 1) ⟨.coalesce left right, ty, span⟩
  | tuple {n : Nat} {elements : List Expr} {ty : Ty} {span : Span}
    (helements : ∀ e ∈ elements, Combination n e) : Combination (n + 1) ⟨.tuple elements, ty, span⟩
  | conversion {n : Nat} {operand : Expr} {kind : Conversion} {ty : Ty} {span : Span}
    (hkind : kind = .identity ∨ kind = .reference) (hoperand : Combination n operand) :
    Combination (n + 1) ⟨.conversion operand kind, ty, span⟩
  | unary {n : Nat} {operand : Expr} {ty : Ty} {span : Span} (hty : ty.isRefLike = true)
    (hoperand : Combination n operand) : Combination (n + 1) ⟨.unary operand, ty, span⟩
  | binary {n : Nat} {left right : Expr} {ty : Ty} {span : Span} (hty : ty.isRefLike = true)
    (hleft : Combination n left) (hright : Combination n right) :
    Combination (n + 1) ⟨.binary left right, ty, span⟩
  | switch {n : Nat} {governing : Expr} {arms : List Arm} {ty : Ty} {span : Span}
    (hgoverning : governing.form = .literal)
    (hplain : ∀ arm ∈ arms, arm.pattern = .discard ∧ arm.guard = none)
    (hvalues : ∀ arm ∈ arms, Combination (n + 1) arm.value) :
    Combination (n + 2) ⟨.switch governing arms, ty, span⟩

/-- A combination has at least one level. -/
theorem Combination.exists_succ {n : Nat} {e : Expr} (h : e.Combination n) : ∃ m, n = m + 1 := by
  cases h <;> exact ⟨_, rfl⟩

end Expr

/-! ### Joins -/

namespace Scope

/-- The calling method adds nothing to a join from the left. -/
theorem callingMethod_join (scope : Scope) : callingMethod.join scope = scope := by
  simp [join, le_def, depth]

/-- Joins may be taken in any grouping, whether or not the scopes are canonical. -/
theorem join_assoc (a b c : Scope) : (a.join b).join c = a.join (b.join c) := by
  grind [join, le_def]

/-- The join of a list may be taken in pieces. -/
instance : Std.Associative join := ⟨join_assoc⟩

private theorem joinAll_append (scopes more : List Scope) :
    joinAll (scopes ++ more) = (joinAll scopes).join (joinAll more) := by
  have h : more.foldl join ((joinAll scopes).join callingMethod) =
      (joinAll scopes).join (joinAll more) := List.foldl_assoc
  rw [join_callingMethod] at h
  rw [joinAll, List.foldl_append]
  exact h

private theorem joinAll_singleton (scope : Scope) : joinAll [scope] = scope :=
  callingMethod_join scope

private theorem joinAll_flatMap {α : Type} (f : α → List Scope) (items : List α) :
    joinAll (items.flatMap f) = joinAll (items.map fun item => joinAll (f item)) := by
  induction items with
  | nil => rfl
  | cons item rest ih =>
    rw [List.flatMap_cons, joinAll_append, ih, List.map_cons, ← List.singleton_append,
      joinAll_append, joinAll_singleton]

end Scope

/-! ### What combinations answer and report -/

/-- What is reported of the leaves that fall short of `target`. -/
def Expr.shortfalls (rules : Rules) (recorded : Lifetimes) (target : Scope) (region : Region)
    (leaves : List Expr) : List Diagnostic :=
  (leaves.filter fun leaf => (leaf.leafScope rules recorded).narrowerThan target).map
    (·.leafFinding.inRegion region)

private theorem Expr.shortfalls_append (rules : Rules) (recorded : Lifetimes) (target : Scope)
    (region : Region) (leaves more : List Expr) :
    shortfalls rules recorded target region (leaves ++ more) =
      shortfalls rules recorded target region leaves ++
        shortfalls rules recorded target region more := by
  simp [shortfalls]

private theorem Expr.shortfalls_flatMap {α : Type} (rules : Rules) (recorded : Lifetimes)
    (target : Scope) (region : Region) (f : α → List Expr) (items : List α) :
    shortfalls rules recorded target region (items.flatMap f) =
      items.flatMap fun item => shortfalls rules recorded target region (f item) := by
  simp [shortfalls, List.filter_flatMap, List.map_flatMap]

namespace Walker

variable {w : Walker} {levels : Nat} {mood : Mood} {recorded : Lifetimes}

/-- The reading of the leaves of a combination, from left to right. -/
def ReadsLeaves (w : Walker) (levels : Nat) (mood : Mood) (recorded : Lifetimes) (e : Expr)
    (block target : Scope) (leaves : List Expr) : Prop :=
  w.Reads levels mood recorded e ⟨block, .value, target⟩
    (Scope.joinAll (leaves.map (·.leafScope w.setting.rules recorded)))
    (Expr.shortfalls w.setting.rules recorded target mood.region leaves)

variable {block target : Scope}

private theorem ReadsLeaves.of_leaf {e : Expr}
    (h : w.Reads levels mood recorded e ⟨block, .value, target⟩
      (e.leafScope w.setting.rules recorded)
      (if (e.leafScope w.setting.rules recorded).narrowerThan target then
        [e.leafFinding.inRegion mood.region] else [])) :
    w.ReadsLeaves levels mood recorded e block target [e] := by
  unfold ReadsLeaves
  rw [List.map_singleton, Scope.joinAll_singleton]
  convert h using 1
  unfold Expr.shortfalls
  rw [List.filter_singleton]
  split <;> simp [*]

private theorem localVar_reads (hq : mood.quiet = false) {var : Local} {ty : Ty} {span : Span}
    (h : Expr.IsRecorded recorded ⟨.localVar var, ty, span⟩) :
    w.ReadsLeaves (levels + 1) mood recorded ⟨.localVar var, ty, span⟩ block target
      [⟨.localVar var, ty, span⟩] := by
  obtain ⟨lifetime, hl⟩ := Option.isSome_iff_exists.mp (h var rfl)
  refine .of_leaf (.of_rule fun path => ⟨∅, .lookup ?_⟩)
  simp only [Expr.leafScope, Expr.leafFinding, hl, Option.map_some, Option.getD_some]
  exact .settle hq _ _ _

private theorem param_reads (hq : mood.quiet = false) (p : Param) (ty : Ty) (span : Span) :
    w.ReadsLeaves (levels + 1) mood recorded ⟨.param p, ty, span⟩ block target
      [⟨.param p, ty, span⟩] :=
  .of_leaf (.of_rule fun _ => ⟨∅, .settle hq _ _ _⟩)

private theorem stackAlloc_reads (hq : mood.quiet = false) {count : Expr} {elements : List Expr}
    (hcount : count.form = .literal) (helements : ∀ e ∈ elements, e.form = .literal) (ty : Ty)
    (span : Span) :
    w.ReadsLeaves (levels + 2) mood recorded ⟨.stackAlloc count elements, ty, span⟩ block target
      [⟨.stackAlloc count elements, ty, span⟩] := by
  refine .of_leaf (.of_rule fun path => ?_)
  have hallocated : w.Yields (levels + 1) mood path recorded ∅
      (Rule.stackValue .escapeStackAlloc ⟨.stackAlloc count elements, ty, span⟩
        ⟨block, .value, target⟩) .currentMethod
      (if Scope.currentMethod.narrowerThan target then
        [Finding.inRegion ⟨.escapeStackAlloc, span, [ty.name]⟩ mood.region] else []) :=
    (Yields.reportIf hq _ _).map rfl
  have hfilled : w.Yields (levels + 1) mood path recorded {step | ∃ i, 0 ≤ i ∧ step = .element i}
      (Functor.discard (Plan.evaluateAll .element elements ⟨block, .value, block⟩)) () [] := by
    have h : w.Yields (levels + 1) mood path recorded _
        (Plan.evaluateAll .element elements ⟨block, .value, block⟩) (elements.map fun _ => _)
        (elements.flatMap fun _ => []) :=
      .evaluateAll (by simp) fun e he => literal_reads (helements e he) _
    rw [List.flatMap_eq_nil_iff.mpr (by simp)] at h
    exact h.discard
  refine ⟨_, Yields.skip (Yields.evaluate (literal_reads hcount _) .operand []).discard
    (hfilled.skip hallocated fun _ _ => Set.notMem_empty _) (by simp)⟩

/-- Two operands are read one after the other. -/
theorem pair_reads {path : Path} {left right : Expr} {leaves leaves' : List Expr}
    (hleft : w.ReadsLeaves levels mood recorded left block target leaves)
    (hright : w.ReadsLeaves levels mood recorded right block target leaves') :
    w.Yields levels mood path recorded ({.left} ∪ {.right})
      (do
        let l ← Plan.evaluate [.left] left ⟨block, .value, target⟩
        let r ← Plan.evaluate [.right] right ⟨block, .value, target⟩
        return l.join r)
      (Scope.joinAll ((leaves ++ leaves').map (·.leafScope w.setting.rules recorded)))
      (Expr.shortfalls w.setting.rules recorded target mood.region (leaves ++ leaves')) := by
  rw [List.map_append, Scope.joinAll_append, Expr.shortfalls_append]
  exact (Yields.evaluate hleft .left []).bind ((Yields.evaluate hright .right []).map rfl) (by simp)

/-- The arm at position `i` of a plain switch expression is read for its value. -/
theorem arm_reads {path : Path} {arm : Arm} {input : Scope} {leaves : List Expr}
    (hplain : arm.pattern = .discard ∧ arm.guard = none)
    (h : w.ReadsLeaves levels mood recorded arm.value block target leaves) (i : Nat) :
    w.Yields levels mood path recorded {.arm i} (Rule.arm input ⟨block, .value, target⟩ i arm)
      (Scope.joinAll (leaves.map (·.leafScope w.setting.rules recorded)))
      (Expr.shortfalls w.setting.rules recorded target mood.region leaves) := by
  unfold Rule.arm
  rw [hplain.1, hplain.2]
  exact .evaluate h (.arm i) [.body]

/-- A combination is read as its leaves are. -/
theorem combination_reads (hq : mood.quiet = false) {e : Expr} (he : e.Combination levels)
    (hrecorded : ∀ leaf ∈ e.leaves, leaf.IsRecorded recorded) :
    w.ReadsLeaves levels mood recorded e block target e.leaves := by
  induction he with
  | literal =>
    refine .of_leaf ?_
    rw [Expr.leafScope, Scope.callingMethod_narrowerThan]
    exact literal_reads rfl _
  | defaultValue =>
    refine .of_leaf (.of_rule fun path => ⟨∅, ?_⟩)
    rw [Expr.leafScope, Scope.callingMethod_narrowerThan]
    exact .pure _
  | localVar => exact localVar_reads hq (hrecorded _ (List.mem_singleton.mpr rfl))
  | param => exact param_reads hq _ _ _
  | stackAlloc hcount helements => exact stackAlloc_reads hq hcount helements _ _
  | @conditional n condition whenTrue whenFalse byRef ty span hcondition htrue hfalse iht ihf =>
    obtain ⟨ht, hf⟩ := List.forall_mem_append.mp hrecorded
    obtain ⟨m, rfl⟩ := htrue.exists_succ
    have hchecked (path : Path) : w.Yields (m + 1) mood path recorded {.condition}
        (Functor.discard (Plan.evaluate [.condition] condition ⟨block, .value, block⟩)) () [] :=
      (Yields.evaluate (literal_reads hcondition _) .condition []).discard
    exact .of_rule fun path =>
      ⟨_, (hchecked path).skip (pair_reads (iht ht) (ihf hf)) (by simp)⟩
  | @coalesce n left right ty span hleft hright ihl ihr =>
    obtain ⟨hl, hr⟩ := List.forall_mem_append.mp hrecorded
    exact .of_rule fun path => ⟨_, pair_reads (ihl hl) (ihr hr)⟩
  | @tuple n elements ty span helements ih =>
    have hleaves : Expr.leaves ⟨.tuple elements, ty, span⟩ = elements.flatMap (·.leaves) :=
      Expr.listLeaves_eq elements
    rw [hleaves] at hrecorded ⊢
    rw [ReadsLeaves, List.map_flatMap, Scope.joinAll_flatMap, Expr.shortfalls_flatMap]
    refine .of_rule fun path => ⟨_, Yields.map (.evaluateAll (by simp) fun e he => ?_) rfl⟩
    exact ih e he fun leaf hleaf => hrecorded leaf (List.mem_flatMap.mpr ⟨e, he, hleaf⟩)
  | @conversion n operand kind ty span hkind hoperand ih =>
    refine .of_rule fun path => ⟨{.operand}, ?_⟩
    rcases hkind with rfl | rfl
    · exact .evaluate (ih hrecorded) .operand []
    · exact .evaluate (ih hrecorded) .operand []
  | @unary n operand ty span hty hoperand ih =>
    refine .of_rule fun path => ⟨{.operand}, ?_⟩
    simp only [Rule.expr, hty, if_true]
    exact Yields.map (.evaluate (ih hrecorded) .operand []) rfl
  | @binary n left right ty span hty hleft hright ihl ihr =>
    obtain ⟨hl, hr⟩ := List.forall_mem_append.mp hrecorded
    refine .of_rule fun path => ⟨{.left} ∪ {.right}, ?_⟩
    simp only [Rule.expr, hty, if_true]
    exact pair_reads (ihl hl) (ihr hr)
  | @switch n governing arms ty span hgoverning hplain hvalues ih =>
    have hleaves : Expr.leaves ⟨.switch governing arms, ty, span⟩ =
        arms.flatMap (·.value.leaves) := Arm.listLeaves_eq arms
    rw [hleaves] at hrecorded ⊢
    rw [ReadsLeaves, List.map_flatMap, Scope.joinAll_flatMap, Expr.shortfalls_flatMap]
    have harm (path : Path) (i : Nat) (arm : Arm) (harm : arm ∈ arms) :
        w.Yields (n + 1) mood path recorded {.arm i}
          (Rule.arm .callingMethod ⟨block, .value, target⟩ i arm) _ _ :=
      arm_reads (hplain arm harm) (ih arm harm fun leaf hleaf =>
        hrecorded leaf (List.mem_flatMap.mpr ⟨arm, harm, hleaf⟩)) i
    refine .of_rule fun path => ⟨_, Yields.skip (.evaluate (literal_reads hgoverning _) .operand [])
      (Yields.map (.forEach (fun i j h => ?_) (harm path) 0) rfl) (by simp)⟩
    exact Step.arm.inj h

/-- A combination of values may be carried as far as its narrowest leaf, and no further. It reports
exactly the leaves that may not be carried to the target of the demand, from left to right. -/
theorem combination_reads_leaves (w : Walker) (levels : Nat) {e : Expr}
    (he : e.Combination levels) {mood : Mood} (hq : mood.quiet = false) {path : Path} {s : State}
    (hs : s.Fresh path) (hrecorded : ∀ leaf ∈ e.leaves, leaf.IsRecorded s.lifetimes)
    (block target : Scope) :
    ∃ scope t, w.visit levels mood path (.expr e) ⟨block, .value, target⟩ s = .ok scope t ∧
      scope = Scope.joinAll (e.leaves.map (·.leafScope w.setting.rules s.lifetimes)) ∧
      Scope.Narrowest (fun found => ∃ leaf ∈ e.leaves,
        leaf.leafScope w.setting.rules s.lifetimes = found) scope ∧
      t.lifetimes = s.lifetimes ∧
      t.journal.diagnostics.toList = s.journal.diagnostics.toList ++
        (e.leaves.filter fun leaf =>
          (leaf.leafScope w.setting.rules s.lifetimes).narrowerThan target).map
          (·.leafFinding.inRegion mood.region) := by
  obtain ⟨t, ht, hadds⟩ := combination_reads hq he hrecorded path s (fun _ => hs) rfl
  refine ⟨_, t, ht, rfl, ?_, hadds.lifetimes, hadds.diagnostics⟩
  exact (Scope.joinAll_narrowest _).congr fun found => List.mem_map

/-- A tuple of a choice, a switch expression and a converted operand is returned. The leaf that may
be carried anywhere is not reported, and the local that occurs twice is reported twice. -/
theorem combination_reads_leaves_tuple :
    let span : Ty := .refStruct "S"
    let var : Local := { id := 0, name := "x", ty := span, span := default }
    let p : Param := { name := "p", ty := span, modifier := .scopedValue, span := default }
    let one : Expr := ⟨.literal, .int, default⟩
    let x : Expr := ⟨.localVar var, span, default⟩
    let choice : Expr :=
      ⟨.conditional one x ⟨.stackAlloc one [], span, default⟩ false, span, default⟩
    let switch : Expr := ⟨.switch one [⟨.discard, none, ⟨.param p, span, default⟩⟩,
      ⟨.discard, none, ⟨.defaultValue, span, default⟩⟩], span, default⟩
    let operand : Expr := ⟨.unary ⟨.conversion x .reference, span, default⟩, span, default⟩
    let e : Expr := ⟨.tuple [choice, switch, operand], .refStruct "T", default⟩
    let w : Walker := ⟨⟨.updated, { name := "f", returnTy := span, span := default }⟩, 8, true⟩
    let s : State := { lifetimes := Lifetimes.empty.insert 0 ⟨.block 1, .block 1⟩ }
    ∃ t, w.visit 4 {} [] (.expr e) ⟨.block 1, .value, .returnOnly⟩ s = .ok (.block 1) t ∧
      t.journal.diagnostics.toList =
        [⟨.violation .escapeVariable .error, default, ["x"]⟩,
          ⟨.violation .escapeStackAlloc .error, default, ["S"]⟩,
          ⟨.violation .escapeVariable .error, default, ["p"]⟩,
          ⟨.violation .escapeVariable .error, default, ["x"]⟩] := by
  intro span var p one x choice switch operand e w s
  have hchoice : choice.Combination 3 := .conditional rfl .localVar (.stackAlloc rfl (by simp))
  have hswitch : switch.Combination 3 := by
    refine .switch rfl (by simp) ?_
    simp only [List.forall_mem_cons, List.not_mem_nil, false_implies, implies_true, and_true]
    exact ⟨.param, .defaultValue⟩
  have hoperand : operand.Combination 3 := .unary rfl (.conversion (.inr rfl) .localVar)
  have he : e.Combination 4 := by
    refine .tuple ?_
    simp only [List.forall_mem_cons, List.not_mem_nil, false_implies, implies_true, and_true]
    exact ⟨hchoice, hswitch, hoperand⟩
  have hrecorded : ∀ leaf ∈ e.leaves, leaf.IsRecorded s.lifetimes := by
    have hx : x.IsRecorded s.lifetimes := by
      intro named hnamed
      cases hnamed
      rfl
    have hother (leaf : Expr) (h : ∀ named, leaf.form ≠ .localVar named) :
        leaf.IsRecorded s.lifetimes := fun named hnamed => absurd hnamed (h named)
    simp only [show e.leaves = [x, ⟨.stackAlloc one [], span, default⟩, ⟨.param p, span, default⟩,
      ⟨.defaultValue, span, default⟩, x] from rfl, List.forall_mem_cons, List.not_mem_nil,
      false_implies, implies_true, and_true]
    exact ⟨hx, hother _ (by simp), hother _ (by simp), hother _ (by simp), hx⟩
  have hq : ({} : Mood).quiet = false := rfl
  have hs : s.Fresh [] := fun _ _ _ => rfl
  obtain ⟨scope, t, ht, hscope, -, -, hd⟩ := w.combination_reads_leaves 4 he hq hs hrecorded
    (.block 1) .returnOnly
  have hnarrowest : scope = .block 1 := hscope
  rw [hnarrowest] at ht
  exact ⟨t, ht, hd⟩

end Walker

end RefLifetime
