import RefLifetime.Proofs.ByValue
import RefLifetime.Proofs.Target

/-!
# Both sets of rules on code without references in signatures and fields

Without by-ref parameters and ref fields nothing is ever return-only, and a return asks for the
calling method under one set of rules and for the return-only scope under the other. The two walks
go on side by side: they make the same requests, up to the target of what is returned, and no scope
that comes up tells the two targets apart.
-/

namespace RefLifetime

/-- The scope is there under both sets of rules. -/
def Scope.Plain (scope : Scope) : Prop := scope ≠ .returnOnly

private theorem Scope.plain_of_bodyDepth {scope : Scope} (h : bodyDepth ≤ scope.depth) :
    scope.Plain := by
  rintro rfl
  simp [bodyDepth, depth] at h

/-- No plain scope lies between the two targets of a return. -/
theorem Scope.Plain.narrowerThan {scope : Scope} (h : scope.Plain) :
    scope.narrowerThan .callingMethod = scope.narrowerThan .returnOnly := by
  cases scope with
  | callingMethod => rfl
  | returnOnly => exact absurd rfl h
  | currentMethod => rfl
  | block level =>
    simp only [Scope.narrowerThan, lt_def, depth, bodyDepth, maxDepth]
    rw [decide_eq_true (by omega), decide_eq_true (by omega)]
  | unused => rfl

/-! ### Plans that mirror each other -/

/-- Two plans that make the same requests as long as these are met as the contract says, except that
an expression may be asked for the calling method in the one and for the return-only scope in the
other. -/
inductive Plan.Mirrors {α : Type} (c : Contract) : Plan α → Plan α → Prop
  | done (a : α) : Mirrors c (.done a) (.done a)
  | fail (cause : Failure) : Mirrors c (.fail cause) (.fail cause)
  | same {route : Path} {node : Node} {demand : Demand} {inner : Mood} {next next' : Scope → Plan α}
      (hn : ∀ scope, c.answers node scope → Mirrors c (next scope) (next' scope)) :
      Mirrors c (.visit route node demand inner next) (.visit route node demand inner next')
  | returned {route : Path} {e : Expr} {block : Scope} {mode : Mode} {inner : Mood}
      {next next' : Scope → Plan α}
      (hn : ∀ scope, c.answers (.expr e) scope → Mirrors c (next scope) (next' scope)) :
      Mirrors c (.visit route (.expr e) ⟨block, mode, .callingMethod⟩ inner next)
        (.visit route (.expr e) ⟨block, mode, .returnOnly⟩ inner next')
  | lookup {id : Nat} {next next' : Option Lifetime → Plan α}
      (hn : ∀ found, (∀ lifetime, found = some lifetime → c.finds lifetime) →
        Mirrors c (next found) (next' found)) :
      Mirrors c (.lookup id next) (.lookup id next')
  | declare {var : Local} {lifetime : Lifetime} {next next' : Plan α} (hn : Mirrors c next next') :
      Mirrors c (.declare var lifetime next) (.declare var lifetime next')
  | report {finding : Finding} {next next' : Plan α} (hn : Mirrors c next next') :
      Mirrors c (.report finding next) (.report finding next')
  | hint {id : Nat} {next next' : Plan α} (hn : Mirrors c next next') :
      Mirrors c (.hint id next) (.hint id next')

namespace Plan.Mirrors

variable {α β : Type} {c : Contract}

/-- Continuations of plans that mirror each other. -/
theorem bind {p q : Plan α} {f g : α → Plan β} (h : Mirrors c p q)
    (hf : ∀ a, Mirrors c (f a) (g a)) : Mirrors c (p >>= f) (q >>= g) := by
  change Mirrors c (p.bind f) (q.bind g)
  induction h with
  | done a => exact hf a
  | fail cause => exact .fail cause
  | same _ ih => exact .same ih
  | returned _ ih => exact .returned ih
  | lookup _ ih => exact .lookup ih
  | declare _ ih => exact .declare ih
  | report _ ih => exact .report ih
  | hint _ ih => exact .hint ih

/-- Every plan mirrors itself, with continuations that need to do so only for what it may result
in. -/
theorem bind_of_honours {p : Plan α} {Q : α → Prop} (h : p.Honours c Q) {f g : α → Plan β}
    (hf : ∀ a, Q a → Mirrors c (f a) (g a)) : Mirrors c (p >>= f) (p >>= g) := by
  change Mirrors c (p.bind f) (p.bind g)
  induction p with
  | done a => exact hf a h
  | fail cause => exact .fail cause
  | visit route node demand inner next ih =>
    exact .same fun scope hs => ih scope (h.2 scope hs)
  | lookup id next ih => exact .lookup fun found hl => ih found (h found hl)
  | declare var lifetime next ih => exact .declare (ih h.2)
  | report finding next ih => exact .report (ih h)
  | hint id next ih => exact .hint (ih h)

/-- Every plan mirrors itself. -/
theorem refl (p : Plan α) : Mirrors c p p := by
  induction p with
  | done a => exact .done a
  | fail cause => exact .fail cause
  | visit route node demand inner next ih => exact .same fun scope _ => ih scope
  | lookup id next ih => exact .lookup fun found _ => ih found
  | declare var lifetime next ih => exact .declare ih
  | report finding next ih => exact .report ih
  | hint id next ih => exact .hint ih

/-- What the two plans begin with in common. -/
theorem after (p : Plan α) {f g : α → Plan β} (hf : ∀ a, Mirrors c (f a) (g a)) :
    Mirrors c (p >>= f) (p >>= g) :=
  (refl p).bind hf

private theorem forEach {f g : Nat → α → Plan β} (h : ∀ i a, Mirrors c (f i a) (g i a))
    (items : List α) (start : Nat) :
    Mirrors c (Plan.forEach f items start) (Plan.forEach g items start) := by
  induction items generalizing start with
  | nil => exact .done []
  | cons item rest ih => exact (h start item).bind fun _ => (ih (start + 1)).bind fun _ => .done _

end Plan.Mirrors

/-! ### Expressions whose result is returned -/

namespace Rule

variable {block : Scope} {mode : Mode} {c : Contract}

/-- A plain scope is held against both targets alike. -/
theorem settle_returned {scope : Scope} (h : scope.Plain) (finding : Finding) :
    (Plan.settle ⟨block, mode, .callingMethod⟩ scope finding).Mirrors c
      (Plan.settle ⟨block, mode, .returnOnly⟩ scope finding) := by
  unfold Plan.settle
  dsimp only
  rw [h.narrowerThan]
  exact .refl _

private theorem localVar_returned (hc : ∀ lifetime, c.finds lifetime → lifetime.ref.Plain ∧
    lifetime.value.Plain) (var : Local) (span : Span) :
    (localVar var span ⟨block, mode, .callingMethod⟩).Mirrors c
      (localVar var span ⟨block, mode, .returnOnly⟩) := by
  refine .lookup fun found hfound => ?_
  cases found with
  | none => exact .fail _
  | some lifetime =>
    obtain ⟨href, hvalue⟩ := hc lifetime (hfound lifetime rfl)
    cases mode with
    | value => exact settle_returned hvalue _
    | ref => exact settle_returned href (var.refFinding span .callingMethod)

private theorem param_returned {rules : Rules} {p : Param}
    (h : (p.refScope rules).Plain ∧ (p.valueScope rules).Plain) (span : Span) :
    (param rules p span ⟨block, mode, .callingMethod⟩).Mirrors c
      (param rules p span ⟨block, mode, .returnOnly⟩) := by
  cases mode with
  | value => exact settle_returned h.2 _
  | ref => exact settle_returned h.1 _

/-- A part whose scope is the answer. -/
theorem evaluate_returned (route : Path) (e : Expr) :
    (Plan.evaluate route e ⟨block, mode, .callingMethod⟩).Mirrors c
      (Plan.evaluate route e ⟨block, mode, .returnOnly⟩) :=
  .returned fun scope _ => .done scope

/-- An operand that ends up in the result, if a value is asked for. -/
theorem operand_returned (route : Path) (e : Expr) :
    (Plan.evaluate route e (Demand.forOperand ⟨block, mode, .callingMethod⟩)).Mirrors c
      (Plan.evaluate route e (Demand.forOperand ⟨block, mode, .returnOnly⟩)) := by
  cases mode with
  | value => exact evaluate_returned route e
  | ref => exact .refl _

private theorem joined_returned (left right : Expr) :
    (joined left right ⟨block, mode, .callingMethod⟩).Mirrors c
      (joined left right ⟨block, mode, .returnOnly⟩) := by
  refine (operand_returned [.left] left).bind fun l => ?_
  exact (operand_returned [.right] right).bind fun r => .refl _

private theorem conditional_returned (condition whenTrue whenFalse : Expr) (byRef : Bool) :
    (conditional condition whenTrue whenFalse byRef ⟨block, mode, .callingMethod⟩).Mirrors c
      (conditional condition whenTrue whenFalse byRef ⟨block, mode, .returnOnly⟩) := by
  refine .after _ fun _ => ?_
  have hboth : (do
      let l ← Plan.evaluate [.left] whenTrue ⟨block, mode, .callingMethod⟩
      let r ← Plan.evaluate [.right] whenFalse ⟨block, mode, .callingMethod⟩
      return l.join r : Plan Scope).Mirrors c (do
      let l ← Plan.evaluate [.left] whenTrue ⟨block, mode, .returnOnly⟩
      let r ← Plan.evaluate [.right] whenFalse ⟨block, mode, .returnOnly⟩
      return l.join r) :=
    (evaluate_returned [.left] whenTrue).bind fun _ =>
      (evaluate_returned [.right] whenFalse).bind fun _ => .done _
  cases mode with
  | value => exact hboth
  | ref =>
    cases byRef with
    | true => exact hboth
    | false => exact .refl _

private theorem arm_returned (input : Scope) (i : Nat) (a : Arm) :
    (arm input ⟨block, mode, .callingMethod⟩ i a).Mirrors c
      (arm input ⟨block, mode, .returnOnly⟩ i a) := by
  have hp : pattern [.arm i, .pattern] input ⟨block, mode, .callingMethod⟩ a.pattern =
      pattern [.arm i, .pattern] input ⟨block, mode, .returnOnly⟩ a.pattern :=
    pattern_congr (by rfl) _ input a.pattern
  unfold arm
  rw [hp]
  refine .after _ fun _ => .after _ fun _ => ?_
  exact operand_returned [.arm i, .body] a.value

private theorem field_returned (rules : Rules) (holder : Expr) {member : Field}
    (hs : member.isStatic = false) :
    (field rules (some holder) member ⟨block, mode, .callingMethod⟩).Mirrors c
      (field rules (some holder) member ⟨block, mode, .returnOnly⟩) := by
  rw [field_eq rules holder hs, field_eq rules holder hs]
  unfold Field.holderDemand
  dsimp only
  cases member.limit? rules holder mode with
  | none => exact .refl _
  | some limit => exact .returned fun _ _ => .done _

private theorem call_returned (hc : Scope.Closed Scope.Plain block) (rules : Rules) {node : Node}
    (e : Expr) (receiver : Option Expr) (callee : Method) (args : List Argument)
    (hn : node.declared = Argument.outVars receiver args) :
    (call rules e receiver callee args ⟨block, mode, .callingMethod⟩).Mirrors
      (node.contract Scope.Plain block)
      (call rules e receiver callee args ⟨block, mode, .returnOnly⟩) := by
  have hsite (given : List Actual) : callSite rules callee ⟨block, mode, .callingMethod⟩ given =
      callSite rules callee ⟨block, mode, .returnOnly⟩ given :=
    callSite_congr (by rfl) rules callee given
  refine .bind_of_honours (receiverActual_honours hc callee receiver args rfl) fun own ho => ?_
  refine .bind_of_honours (actuals_honours hc callee receiver args rfl) fun given hg => ?_
  rw [← hn] at ho hg
  dsimp only
  rw [hsite]
  have hgiven := List.forall_mem_append.mpr ⟨ho, hg⟩
  refine .bind_of_honours (callSite_honours hc rules callee rfl hgiven) fun bound hb => ?_
  have hescape (demand : Demand) : (Invocation.escape rules e.ty demand bound).1.Plain :=
    Invocation.escape_of hc.callingMethod rules e.ty demand hb
  cases mode with
  | value =>
    cases e.ty.isRefLike with
    | true => exact settle_returned (hescape ⟨block, .value, .callingMethod⟩) _
    | false => exact .refl _
  | ref =>
    cases callee.returnsByRef with
    | true => exact settle_returned (hescape ⟨block, .ref, .callingMethod⟩) _
    | false => exact .refl _

private theorem objectCreation_returned (hc : Scope.Closed Scope.Plain block) (rules : Rules)
    {node : Node} (e : Expr) (constructor : Method) (args : List Argument) (inits : List FieldInit)
    (hn : node.declared = Argument.outVars none args) :
    (objectCreation rules e constructor args inits ⟨block, mode, .callingMethod⟩).Mirrors
      (node.contract Scope.Plain block)
      (objectCreation rules e constructor args inits ⟨block, mode, .returnOnly⟩) := by
  have hsite (given : List Actual) :
      callSite rules constructor ⟨block, mode, .callingMethod⟩ given =
        callSite rules constructor ⟨block, mode, .returnOnly⟩ given :=
    callSite_congr (by rfl) rules constructor given
  refine .bind_of_honours (actuals_honours hc constructor none args rfl) fun given hg => ?_
  rw [← hn] at hg
  rw [hsite]
  refine .bind_of_honours (callSite_honours hc rules constructor rfl hg) fun bound hb => ?_
  have hinits (i : Nat) (init : FieldInit) (_ : init ∈ inits) :
      (fieldInit rules i init ⟨block, mode, .returnOnly⟩).Honours (node.contract Scope.Plain block)
        Scope.Plain :=
    fieldInit_honours hc.callingMethod rules i init _
  refine .bind_of_honours (.forEach hinits 0) fun initialized hi => ?_
  have hescape (demand : Demand) : (Invocation.escape rules e.ty demand bound).1.Plain :=
    Invocation.escape_of hc.callingMethod rules e.ty demand hb
  cases mode with
  | value =>
    cases e.ty.isRefLike with
    | true =>
      refine settle_returned (Scope.join_of (hescape ⟨block, .value, .callingMethod⟩) ?_) _
      exact Scope.joinAll_of hc.callingMethod hi
    | false => exact .refl _
  | ref => exact .refl _

end Rule

/-- Asked for what is returned, an expression makes the same requests whichever scope that has to
reach. -/
theorem Rule.expr_returned {setting : Setting} {e : Expr} {block : Scope} {mode : Mode}
    (hc : Scope.Closed Scope.Plain block) (hp : setting.Allows Scope.Plain (.expr e)) :
    (Rule.expr setting e ⟨block, mode, .callingMethod⟩).Mirrors
      ((Node.expr e).contract Scope.Plain block)
      (Rule.expr setting e ⟨block, mode, .returnOnly⟩) := by
  obtain ⟨form, ty, span⟩ := e
  cases form with
  | literal | defaultValue | typeToken | typeSize | discard => exact .refl _
  | localVar var => exact localVar_returned (fun _ h => h) var span
  | param p =>
    exact param_returned (hp p (List.mem_append_right _ List.mem_cons_self)) span
  | thisRef =>
    simp only [Rule.expr, Rule.thisRef]
    split
    · exact .refl _
    · next p hr =>
      refine param_returned (hp p (List.mem_append_left _ ?_)) span
      rw [hr]
      exact List.mem_singleton_self p
  | field receiver member =>
    cases receiver with
    | none => exact .refl _
    | some holder =>
      cases hs : member.isStatic with
      | true =>
        simp only [Rule.expr, Rule.field, hs]
        exact .refl _
      | false => exact field_returned setting.rules holder hs
  | arrayElement array indices => exact .refl _
  | call receiver callee args => exact call_returned hc setting.rules _ receiver callee args rfl
  | objectCreation constructor args inits =>
    exact objectCreation_returned hc setting.rules _ constructor args inits rfl
  | arrayCreation id sizes elements => exact .refl _
  | delegateCreation receiver method => exact .refl _
  | stackAlloc count elements => exact .refl _
  | collection elements => exact .refl _
  | conditional condition whenTrue whenFalse byRef =>
    exact conditional_returned condition whenTrue whenFalse byRef
  | coalesce left right => exact joined_returned left right
  | tuple elements =>
    exact (Plan.Mirrors.forEach (fun i e => operand_returned [.element i] e) elements 0).bind
      fun _ => .refl _
  | conversion operand kind =>
    simp only [Rule.expr]
    split
    · exact evaluate_returned [.operand] operand
    · exact .refl _
  | unary operand =>
    simp only [Rule.expr]
    split
    · exact (operand_returned [.operand] operand).bind fun _ => .refl _
    · exact .refl _
  | binary left right =>
    simp only [Rule.expr]
    split
    · exact joined_returned left right
    · exact .refl _
  | assignment left right byRef => exact .refl _
  | compoundAssignment left right => exact .refl _
  | outVar var =>
    refine .lookup fun found _ => ?_
    cases found with
    | none => exact .declare (localVar_returned (fun _ h => h) var span)
    | some lifetime => exact localVar_returned (fun _ h => h) var span
  | isPattern operand p =>
    have hpattern (input : Scope) :
        Rule.pattern [.pattern] input ⟨block, mode, .callingMethod⟩ p =
          Rule.pattern [.pattern] input ⟨block, mode, .returnOnly⟩ p :=
      Rule.pattern_congr (by rfl) _ input p
    refine .after _ fun input => ?_
    rw [hpattern]
    exact .refl _
  | switch governing arms =>
    refine .after _ fun input => ?_
    exact (Plan.Mirrors.forEach (arm_returned input) arms 0).bind fun _ => .refl _

/-! ### Two walks side by side -/

/-- What a node may be asked for in the one walk and in the other: the same, or a result that is
returned. -/
inductive Node.Near (node : Node) : Demand → Demand → Prop
  | same (demand : Demand) : Near node demand demand
  | returned (he : ∃ e, node = .expr e) (block : Scope) (mode : Mode) :
      Near node ⟨block, mode, .callingMethod⟩ ⟨block, mode, .returnOnly⟩

namespace Rule

variable {setting : Setting} (hr : setting.rules = .legacy)
  (hm : ∀ p ∈ setting.method.signature, p.passing = .byValue)

include hm

/-- Parameters that are no references are plain. -/
theorem allows_plain {node : Node} (hn : node.RefFree) : setting.Allows Scope.Plain node := by
  intro p hp
  have hv : p.passing = .byValue := by
    rcases List.mem_append.mp hp with h | h
    · exact hm p (List.mem_append_left _ h)
    · exact hn.params p h
  constructor
  · rw [Param.refScope_of_byValue hv]
    exact fun h => by cases h
  · unfold Param.valueScope
    simp only [hv]
    split
    · exact fun h => by cases h
    · exact fun h => by cases h

include hr

/-- The rules for a node mirror each other under the two sets of rules. -/
theorem node_mirrors {node : Node} (hn : node.RefFree) {demand demand' : Demand}
    (hd : node.Near demand demand') (hc : Scope.Closed Scope.Plain demand.block) :
    (Rule.node setting node demand).Mirrors (node.contract Scope.Plain demand.block)
      (Rule.node { setting with rules := .updated } node demand') := by
  obtain ⟨rules, method⟩ := setting
  obtain rfl : rules = .legacy := hr
  cases node with
  | expr e =>
    have hrules (demand : Demand) : Rule.expr ⟨.legacy, method⟩ e demand =
        Rule.expr ⟨.updated, method⟩ e demand := Rule.expr_rules _ _ hm hn demand
    cases hd with
    | same =>
      change (Rule.expr ⟨.legacy, method⟩ e demand).Mirrors _ _
      rw [hrules]
      exact .refl _
    | returned he block mode =>
      change Plan.Mirrors _ _ (Rule.expr ⟨.updated, method⟩ e ⟨block, mode, .returnOnly⟩)
      rw [← hrules]
      exact Rule.expr_returned hc (allows_plain hm hn)
  | stmt st =>
    cases hd with
    | returned he block mode =>
      obtain ⟨e, he⟩ := he
      cases he
    | same =>
      cases st with
      | ret value =>
        cases value with
        | none => exact .refl _
        | some e => exact .returned fun _ _ => .done _
      | _ => exact .refl _

end Rule

/-- What is asked for no more than its block is asked for alike. -/
theorem Node.Near.eq {node : Node} {demand demand' : Demand} (h : node.Near demand demand')
    (ht : demand.target = demand.block) (hb : Scope.bodyDepth ≤ demand.block.depth) :
    demand' = demand := by
  cases h with
  | same => rfl
  | returned he block mode =>
    have ht : Scope.callingMethod = block := ht
    rw [← ht] at hb
    cases hb

/-- A visit is mirrored by one of the same part. -/
theorem Plan.Mirrors.of_visit {α : Type} {c : Contract} {route : Path} {node : Node}
    {demand : Demand} {inner : Mood} {next : Scope → Plan α} {q : Plan α}
    (h : Mirrors c (.visit route node demand inner next) q) :
    ∃ demand' next', q = .visit route node demand' inner next' ∧ node.Near demand demand' ∧
      ∀ scope, c.answers node scope → Mirrors c (next scope) (next' scope) := by
  cases h with
  | same hn => exact ⟨demand, _, rfl, .same demand, hn⟩
  | returned hn => exact ⟨_, _, rfl, .returned ⟨_, rfl⟩ _ _, hn⟩

/-- Half way through the stops of a node in both walks: the same is on record, nothing is remembered
of what is ahead, and the same is remembered of what may be asked for again. -/
structure State.Abreast (path : Path) (seen : List Answer) (todo : List Stop) (s t : State) :
    Prop where
  lifetimes : s.lifetimes = t.lifetimes
  left : s.Ahead path seen todo
  right : t.Ahead path seen todo
  agree : ∀ x ∈ seen, x.part.asking = .freely → (∃ e, x.part.node = .expr e) →
    s.Agree (path ++ x.part.route) t

namespace State.Abreast

variable {path : Path} {seen : List Answer} {todo : List Stop} {s s' t t' : State}

private theorem start (hap : todo.Pairwise Stop.Apart) (hl : s.lifetimes = t.lifetimes)
    (hs : s.Fresh path) (ht : t.Fresh path) : s.Abreast path [] todo t :=
  ⟨hl, .start hap hs, .start hap ht, fun _ hx => by cases hx⟩

/-- After the visits of the next part. -/
theorem first {x : Answer} (h : s.Abreast path seen (.part x.part :: todo) t)
    (hl : s'.lifetimes = t'.lifetimes) (hs : s.SameOutside (path ++ x.part.route) s')
    (ht : t.SameOutside (path ++ x.part.route) t')
    (ha : x.part.asking = .freely → (∃ e, x.part.node = .expr e) →
      s'.Agree (path ++ x.part.route) t') : s'.Abreast path (x :: seen) todo t' := by
  refine ⟨hl, h.left.first hs, h.right.first ht, List.forall_mem_cons.mpr ⟨ha, ?_⟩⟩
  intro y hy hf he
  refine ⟨hl, fun q demand hq => ?_⟩
  have hapart := h.left.behind y hy x.part List.mem_cons_self
  have hout : ¬ path ++ x.part.route <+: q := fun hx =>
    ((Path.apart_append_left path _ _).mpr hapart).excludes hq hx
  rw [hs q demand hout, ht q demand hout]
  exact (h.agree y hy hf he).memo q demand hq

/-- After other visits of a part that was seen. -/
theorem again {x : Answer} (h : s.Abreast path seen todo t) (hx : x ∈ seen)
    (hs : s.SameOutside (path ++ x.part.route) s') (ht : t.SameOutside (path ++ x.part.route) t')
    (ha : s'.Agree (path ++ x.part.route) t') : s'.Abreast path seen todo t' := by
  refine ⟨ha.lifetimes, h.left.again hx hs, h.right.again hx ht, fun y hy hf he => ?_⟩
  refine ⟨ha.lifetimes, fun q demand hq => ?_⟩
  by_cases hin : path ++ x.part.route <+: q
  · exact ha.memo q demand hin
  · rw [hs q demand hin, ht q demand hin]
    exact (h.agree y hy hf he).memo q demand hq

private theorem site {id : Nat} (h : s.Abreast path seen (.site id :: todo) t) :
    s.Abreast path seen todo t :=
  ⟨h.lifetimes, h.left.site, h.right.site, h.agree⟩

/-- After steps that remember nothing and record the same. -/
theorem step (h : s.Abreast path seen todo t) (hl : s'.lifetimes = t'.lifetimes)
    (hs : s'.memo = s.memo) (ht : t'.memo = t.memo) : s'.Abreast path seen todo t' := by
  refine ⟨hl, h.left.of_memo hs, h.right.of_memo ht, fun x hx hf he => ⟨hl, ?_⟩⟩
  rw [hs, ht]
  exact (h.agree x hx hf he).memo

private theorem declare {var : Local} (h : s.Abreast path seen (.site var.id :: todo) t)
    (lifetime : Lifetime) :
    (s.declare var lifetime).Abreast path seen todo (t.declare var lifetime) :=
  h.site.step (by simp only [State.declare, h.lifetimes]) rfl rfl

private theorem tell (h : s.Abreast path seen todo t) (mood : Mood) (event : Event) :
    (s.tell mood event).Abreast path seen todo (t.tell mood event) := by
  refine h.step ?_ (s.memo_tell mood event) (t.memo_tell mood event)
  unfold State.tell
  split
  · exact h.lifetimes
  · exact h.lifetimes

end State.Abreast

private theorem State.tallied_refl (s t : State) : State.Tallied True false s t s t :=
  ⟨[], [], .refl s, .refl t, .refl True []⟩

private theorem State.Tallied.declare {s₀ t₀ s t : State} (h : State.Tallied True false s₀ t₀ s t)
    (var : Local) (lifetime : Lifetime) :
    State.Tallied True false s₀ t₀ (s.declare var lifetime) (t.declare var lifetime) := by
  obtain ⟨xs, ys, hs, ht, hx⟩ := h
  exact ⟨_, _, hs.trans (s.extends_declare var lifetime),
    ht.trans (t.extends_declare var lifetime), hx.append_same _⟩

/-- The endings of two walks that began in `s` and `t`: the same result and lifetimes, or the same
failure, and the same diagnostics and hints on the way. -/
def Ending.Matched {α : Type} (s t : State) : Ending α → Ending α → Prop :=
  Alike (fun a s' b t' => a = b ∧ s'.lifetimes = t'.lifetimes ∧ State.Tallied True false s t s' t')
    (State.Tallied True false s t)

/-- What is known of the first ending can be used. -/
theorem Ending.Alike.and_meets {α β : Type} {ok : α → State → β → State → Prop}
    {bad : State → State → Prop} {P : α → State → Prop} {bad' : State → Prop} {r : Ending α}
    {r' : Ending β} (h : Alike ok bad r r') (hr : Meets P bad' r) :
    Alike (fun a s b t => P a s ∧ ok a s b t) bad r r' := by
  cases h with
  | ok h =>
    cases hr with
    | ok hp => exact .ok ⟨hp, h⟩
  | error h => exact .error h

/-- The states around two endings are known as well. -/
theorem Ending.Alike.and_states {α β : Type} {ok : α → State → β → State → Prop}
    {bad : State → State → Prop} {P Q : State → Prop} {r : Ending α} {r' : Ending β}
    (h : Alike ok bad r r') (hr : P r.state) (hr' : Q r'.state) :
    Alike (fun a s b t => (P s ∧ Q t) ∧ ok a s b t) bad r r' := by
  cases h with
  | ok h => exact .ok ⟨⟨hr, hr'⟩, h⟩
  | error h => exact .error h

namespace Walker

/-- With so many levels to go, first visits under the two sets of rules end alike, if no parameter
or field is a reference. -/
def Mirrored (w : Walker) (levels : Nat) : Prop :=
  ∀ mood path (here : Standing) node demand demand' s t, node.Throughout Node.RefFree here →
    Scope.bodyDepth ≤ demand.block.depth → node.Near demand demand' →
    s.Holds Scope.Plain (fun _ _ => True) → s.lifetimes = t.lifetimes → s.Fresh path →
    t.Fresh path → Ending.Matched s t (w.visit levels mood path node demand s)
      ((w.withRules .updated).visit levels mood path node demand' t)

variable {w : Walker} (hm : ∀ p ∈ w.setting.method.signature, p.passing = .byValue)

include hm

/-- Visits of one expression with one demand, from states that agree on it. -/
theorem visit_abreast (levels : Nat) (mood : Mood) (path : Path) {here : Standing} {e : Expr}
    (he : (Node.expr e).Throughout Node.RefFree here) (demand : Demand) {s t : State}
    (h : s.Agree path t) :
    Ending.Alike
      (fun a s' b t' => (a = b ∧ s'.lifetimes = t'.lifetimes ∧ State.Tallied True false s t s' t') ∧
        s'.Agree path t') (State.Tallied True false s t)
      (w.visit levels mood path (.expr e) demand s)
      ((w.withRules .updated).visit levels mood path (.expr e) demand t) := by
  rw [w.visit_rules .updated hm levels mood path he]
  refine (w.visit_agree levels mood path (.expr e) demand h).imp ?_ ?_
  · rintro a s' b t' ⟨hab, hecho⟩
    exact ⟨⟨hab, hecho.agree.lifetimes, (s.tallied_refl t).echo hecho⟩, hecho.agree⟩
  · exact fun s' t' hecho => (s.tallied_refl t).echo hecho

/-- First visits of a part. They leave the same memory of a part that may be asked for again. -/
theorem Mirrored.part {levels : Nat} (hv : w.Mirrored levels) {part : Part} {here : Standing}
    (hin : part.node.Throughout Node.RefFree here) {whole demand demand' : Demand}
    {seen : List Answer} (hasks : part.Asks whole seen demand)
    (hb : Scope.bodyDepth ≤ demand.block.depth) (hd : part.node.Near demand demand') (mood : Mood)
    (path : Path) {s t : State} (hs : s.Holds Scope.Plain fun _ _ => True)
    (hl : s.lifetimes = t.lifetimes) (hfs : s.Fresh path) (hft : t.Fresh path) :
    Ending.Alike
      (fun a s' b t' => (a = b ∧ s'.lifetimes = t'.lifetimes ∧ State.Tallied True false s t s' t') ∧
        (part.asking = .freely → (∃ e, part.node = .expr e) → s'.Agree path t'))
      (State.Tallied True false s t) (w.visit levels mood path part.node demand s)
      ((w.withRules .updated).visit levels mood path part.node demand' t) := by
  have hmatched := hv mood path here part.node demand demand' s t hin hb hd hs hl hfs hft
  cases hd with
  | same =>
    cases hn : part.node with
    | stmt st =>
      rw [hn] at hmatched
      refine hmatched.imp (fun _ _ _ _ h => ⟨h, fun _ he => ?_⟩) fun _ _ h => h
      obtain ⟨e, he⟩ := he
      cases he
    | expr e =>
      have hagree : s.Agree path t :=
        ⟨hl, fun q asked hq => (hfs q asked hq).trans (hft q asked hq).symm⟩
      rw [hn] at hin
      exact (visit_abreast hm levels mood path hin demand hagree).imp
        (fun _ _ _ _ h => ⟨h.1, fun _ _ => h.2⟩) fun _ _ h => h
  | returned he block mode =>
    -- What is returned is asked for once: a free part is asked for no more than its block.
    refine hmatched.imp (fun _ _ _ _ h => ⟨h, fun hf _ => ?_⟩) fun _ _ h => h
    have htarget := hasks.2
    rw [hf] at htarget
    have hd : part.node.Near _ _ := .returned he block mode
    cases hd.eq htarget hb

end Walker

/-- Tours that mirror each other are run alike under the two sets of rules, if first visits are. -/
theorem Plan.Tours.run_mirrors {α : Type} {w : Walker}
    (hm : ∀ p ∈ w.setting.method.signature, p.passing = .byValue) {levels : Nat}
    (hv : w.Mirrored levels) {path : Path} {mood : Mood} {node : Node} {block : Scope}
    (hb : Scope.bodyDepth ≤ block.depth) {stops : List Stop}
    (hmet : ((node.contract Scope.Plain block).touring stops block).Met
      (fun route part asked inner => w.visit levels inner (path ++ route) part asked) mood
      (State.Holds Scope.Plain fun _ _ => True))
    (hin : ∀ p, .part p ∈ stops → ∃ here, p.node.Throughout Node.RefFree here)
    {whole : Demand} {hazard : Prop} {Q R : α → Prop} {seen : List Answer} {todo : List Stop}
    {p q : Plan α} (h : Tours whole hazard Q seen todo p)
    (hc : p.Honours ((node.contract Scope.Plain block).touring stops block) R)
    (hpq : p.Mirrors (node.contract Scope.Plain block) q) {s₀ t₀ s t : State}
    (hab : s.Abreast path seen todo t) (hs : s.Holds Scope.Plain fun _ _ => True)
    (ht : State.Tallied True false s₀ t₀ s t) :
    Ending.Matched s₀ t₀
      (p.run (fun route part asked inner => w.visit levels inner (path ++ route) part asked) mood s)
      (q.run (fun route part asked inner =>
        (w.withRules .updated).visit levels inner (path ++ route) part asked) mood t) := by
  induction h generalizing q s t with
  | done h =>
    cases hpq
    exact .ok ⟨rfl, hab.lifetimes, ht⟩
  | fail hz =>
    cases hpq
    exact .error ht
  | @first seen todo part demand inner next hq ha _ ih =>
    obtain ⟨demand', next', rfl, hnear, hmir⟩ := hpq.of_visit
    obtain ⟨found, hfound, -, hnode, hdepth⟩ := Contract.part_of_touring hc.1 hb
    obtain ⟨here, hpart⟩ := hin found hfound
    rw [hnode] at hpart
    have hvisit := ((hv.part hm hpart ha hdepth hnear (inner.within mood) (path ++ part.route) hs
      hab.lifetimes hab.left.head hab.right.head).and_meets
        (hmet.visit part.route part.node demand inner s hc.1 hs)).and_states
      (w.visit_sameOutside levels _ _ _ demand s)
      ((w.withRules .updated).visit_sameOutside levels _ _ _ demand' t)
    rw [run_visit, run_visit]
    refine hvisit.andThen ?_ fun _ _ h => ht.trans h
    rintro a s' _ t' ⟨⟨hsame, hsame'⟩, ⟨hans, hholds⟩, ⟨rfl, hl, htally⟩, hagree⟩
    have hab' := hab.first (x := ⟨part, demand, a⟩) hl hsame hsame' hagree
    exact ih a (hc.2 a hans) (hmir a hans) hab' hholds (ht.trans htally)
  | @again seen todo part demand inner next hq hx hf hd _ ih =>
    obtain ⟨x, hx, rfl⟩ := hx
    obtain ⟨demand', next', rfl, hnear, hmir⟩ := hpq.of_visit
    obtain ⟨found, hfound, -, hnode, hdepth⟩ := Contract.part_of_touring hc.1 hb
    obtain ⟨here, hpart⟩ := hin found hfound
    obtain rfl := hnear.eq (by rw [hd]; rfl) hdepth
    obtain ⟨hfree, e, he⟩ := hf
    have hagree := hab.agree x hx hfree ⟨e, he⟩
    rw [hnode, he] at hpart
    have hvisit := ((Walker.visit_abreast hm levels (inner.within mood) (path ++ x.part.route)
      hpart demand' hagree).and_meets
        (he ▸ hmet.visit x.part.route x.part.node demand' inner s hc.1 hs)).and_states
      (w.visit_sameOutside levels _ _ _ demand' s)
      ((w.withRules .updated).visit_sameOutside levels _ _ _ demand' t)
    rw [run_visit, run_visit, he]
    refine hvisit.andThen ?_ fun _ _ h => ht.trans h
    rintro a s' _ t' ⟨⟨hsame, hsame'⟩, ⟨hans, hholds⟩, ⟨rfl, -, htally⟩, hagree'⟩
    have hans := he ▸ hans
    exact ih a (hc.2 a hans) (hmir a hans) (hab.again hx hsame hsame' hagree') hholds
      (ht.trans htally)
  | @declare seen todo var lifetime next hz _ ih =>
    cases hpq with
    | declare hpq =>
      have hd := hmet.declare s var lifetime hs hc.1
      exact ih hc.2 hpq (hab.declare lifetime) hd (ht.declare var lifetime)
  | @designate seen todo var lifetime next h _ ih =>
    cases hpq with
    | @lookup _ _ next' hpq =>
      rw [run_lookup, run_lookup, ← hab.lifetimes]
      cases hg : s.lifetimes.get? var.id with
      | none =>
        have hnone := hc none (fun _ hf => by cases hf)
        have hpq := hpq none (fun _ hf => by cases hf)
        rw [h] at hnone hpq ⊢
        generalize next' none = q at hpq ⊢
        cases hpq with
        | declare hpq =>
          have hd := hmet.declare s var lifetime hs hnone.1
          exact ih lifetime hnone.2 hpq (hab.declare lifetime) hd (ht.declare var lifetime)
      | some found =>
        have hplain : ∀ l, some found = some l → l.ref.Plain ∧ l.value.Plain :=
          fun l hl => hmet.finds s hs var.id l (hg.trans hl)
        exact ih found (hc _ hplain) (hpq _ hplain) hab.site hs ht
  | @lookup seen todo id cause next hz h _ ih =>
    cases hpq with
    | @lookup _ _ next' hpq =>
      rw [run_lookup, run_lookup, ← hab.lifetimes]
      cases hg : s.lifetimes.get? id with
      | none =>
        have hpq := hpq none (fun _ hf => by cases hf)
        rw [h] at hpq ⊢
        generalize next' none = q at hpq ⊢
        cases hpq
        exact .error ht
      | some found =>
        have hplain : ∀ l, some found = some l → l.ref.Plain ∧ l.value.Plain :=
          fun l hl => hmet.finds s hs id l (hg.trans hl)
        exact ih found (hc _ hplain) (hpq _ hplain) hab hs ht
  | report _ ih =>
    cases hpq with
    | report hpq => exact ih hc hpq (hab.tell mood _) (hmet.tell hs _) (ht.tell mood _)
  | hint _ ih =>
    cases hpq with
    | hint hpq => exact ih hc hpq (hab.tell mood _) (hmet.tell hs _) (ht.tell mood _)

namespace Walker

variable {w : Walker} (hm : ∀ p ∈ w.setting.method.signature, p.passing = .byValue)

include hm

/-- Nothing return-only comes up where no parameter is a reference. -/
theorem keeps_plain : w.Keeps Node.RefFree Scope.Plain fun _ _ => True where
  closed block hb :=
    ⟨fun h => (by cases h), fun h => (by cases h), Scope.plain_of_bodyDepth hb⟩
  allows _ hn := Rule.allows_plain hm hn
  declares _ _ _ _ _ _ _ := trivial

variable (hr : w.setting.rules = .legacy) {levels : Nat}
  (hv : ∀ fewer, levels = fewer + 1 → w.Mirrored fewer)

include hr hv

/-- Computations under the two sets of rules end alike, if visits of parts do. -/
theorem compute_mirrored (mood : Mood) (path : Path) {here : Standing} {node : Node}
    (hn : node.Throughout Node.RefFree here) {demand demand' : Demand}
    (hb : Scope.bodyDepth ≤ demand.block.depth) (hd : node.Near demand demand') {s₀ t₀ s t : State}
    (hs : s.Holds Scope.Plain fun _ _ => True) (hl : s.lifetimes = t.lifetimes)
    (hfs : s.Fresh path) (hft : t.Fresh path) (ht : State.Tallied True false s₀ t₀ s t) :
    Ending.Matched s₀ t₀ (w.compute levels mood path node demand s)
      ((w.withRules .updated).compute levels mood path node demand' t) := by
  cases levels with
  | zero => exact .error ht
  | succ fewer =>
    have hk := w.keeps_plain hm
    have hin (p : Part) (hp : .part p ∈ node.stops w.setting) :
        ∃ here, p.node.Throughout Node.RefFree here := ⟨_, hn.part w.setting hp⟩
    rw [compute_succ, compute_succ]
    exact (Rule.node_tours w.setting node demand).run_mirrors hm (hv fewer rfl) hb
      (hk.met_visit fewer path hn.own hb hin mood) hin (hk.node_honours hn.own hb)
      (Rule.node_mirrors hr hm hn.own hd (hk.closed _ hb))
      (.start (node.stops_apart w.setting) hl hfs hft) hs ht

/-- First visits under the two sets of rules end alike, if those of parts do. -/
theorem mirrored_of_parts : w.Mirrored levels := by
  intro mood path here node demand demand' s t hn hb hd hs hl hfs hft
  cases node with
  | stmt st =>
    rw [visit_stmt, visit_stmt]
    exact compute_mirrored hm hr hv mood path hn hb hd hs hl hfs hft (s.tallied_refl t)
  | expr e =>
    rw [visit_computed w (w.remembered_fresh hfs _ _),
      visit_computed _ ((w.withRules .updated).remembered_fresh hft _ _)]
    have ht : State.Tallied True false s t (s.note (.visited path demand mood.quiet false))
        (t.note (.visited path demand' mood.quiet false)) :=
      ⟨_, _, s.extends_note _, t.extends_note _, List.Sublist.refl _, rfl, fun _ _ => rfl,
        by simp⟩
    refine (compute_mirrored hm hr hv mood path hn hb hd (hs.note _)
      (t := t.note (.visited path demand' mood.quiet false)) hl hfs hft ht).andThen ?_
      fun _ _ h => h
    rintro a s' _ t' ⟨rfl, hl', ht'⟩
    exact .ok ⟨rfl, hl', ht'⟩

omit hv

/-- First visits under the two sets of rules end alike. -/
theorem mirrored (levels : Nat) : w.Mirrored levels := by
  induction levels with
  | zero => exact mirrored_of_parts hm hr fun _ h => by cases h
  | succ levels ih =>
    refine mirrored_of_parts hm hr fun fewer h => ?_
    obtain rfl := Nat.succ.inj h
    exact ih

/-- The walks of a body end alike. -/
theorem walkBody_mirrored {body : List Stmt}
    (hin : ∀ p, .part p ∈ Stop.body body → ∃ here, p.node.Throughout Node.RefFree here)
    {s t : State} (hs : s.Holds Scope.Plain fun _ _ => True) (hl : s.lifetimes = t.lifetimes)
    (hfs : s.Fresh []) (hft : t.Fresh []) :
    Ending.Matched s t (w.walkBody body s) ((w.withRules .updated).walkBody body t) := by
  have hk := w.keeps_plain hm
  have hb : Scope.bodyDepth ≤ Demand.methodBody.block.depth := Nat.le_refl _
  have hn : (Node.stmt (.block body)).RefFree := ⟨fun _ h => (by cases h), fun _ h => (by cases h)⟩
  exact (Rule.body_tours body).run_mirrors hm (mirrored hm hr w.limit) hb
    (hk.met_visit w.limit [] hn hb hin _) hin (Rule.body_honours Scope.Plain body) (.refl _)
    (.start (Stop.body_apart body) hl hfs hft) hs (s.tallied_refl t)

end Walker

/-- Walks that match end with the same diagnostics and hints if they began with the same. -/
theorem State.Tallied.findings {s t s' t' : State} (h : State.Tallied True false s t s' t')
    (hd : s.journal.diagnostics = t.journal.diagnostics)
    (hh : s.journal.hints = t.journal.hints) :
    s'.journal.diagnostics = t'.journal.diagnostics ∧ s'.journal.hints = t'.journal.hints := by
  obtain ⟨xs, ys, hs, ht, htally⟩ := h
  constructor
  · have hlist : s'.journal.diagnostics.toList = t'.journal.diagnostics.toList := by
      rw [hs.diagnostics, ht.diagnostics, hd, htally.same trivial rfl]
    exact congrArg Diagnostics.mk hlist
  · unfold Journal.hints at hh ⊢
    rw [State.Extends] at hs ht
    rw [hs, ht, List.filterMap_append, List.filterMap_append, hh, htally.hints]

/-- A signature without references calls for no warning. -/
theorem Method.captureWarnings_of_byValue {m : Method}
    (hm : ∀ p ∈ m.signature, p.passing = .byValue) (rules : Rules) :
    m.captureWarnings rules = [] := by
  unfold captureWarnings
  split
  · have hnone : m.params.filter (fun p =>
        (p.passing = .byRef || p.passing = .byIn || p.passing = .byReadOnlyRef) &&
          p.modifier != .scopedRef) = [] := by
      refine List.filter_eq_nil_iff.mpr fun p hp => ?_
      rw [hm p (List.mem_append_right _ hp)]
      simp
    rw [hnone]
    rfl
  · rfl

namespace Walker

variable {w : Walker} (hm : ∀ p ∈ w.setting.method.signature, p.passing = .byValue)

include hm

private theorem initial_of_byValue :
    w.initial = State.note {} (.started w.setting.method.name w.setting.rules) := by
  unfold initial
  dsimp only
  rw [Method.captureWarnings_of_byValue hm]
  rfl

/-- Analyses under the two sets of rules have the same result and the same diagnostics. -/
theorem analyze_mirrored (hr : w.setting.rules = .legacy) (body : List Stmt)
    (hin : ∀ p, .part p ∈ Stop.body body → ∃ here, p.node.Throughout Node.RefFree here) :
    (w.analyze body).result = ((w.withRules .updated).analyze body).result ∧
      (w.analyze body).diagnostics = ((w.withRules .updated).analyze body).diagnostics := by
  have hwalk := walkBody_mirrored hm hr hin (w.initial_holds _ _)
    (t := (w.withRules .updated).initial) (by rw [w.initial_empty.1, initial_empty _ |>.1])
    (w.initial_fresh []) ((w.withRules .updated).initial_fresh [])
  have hd : w.initial.journal.diagnostics = (w.withRules .updated).initial.journal.diagnostics := by
    rw [initial_of_byValue hm, initial_of_byValue (w := w.withRules .updated) hm]
    rfl
  have hh : w.initial.journal.hints = (w.withRules .updated).initial.journal.hints := by
    rw [initial_of_byValue hm, initial_of_byValue (w := w.withRules .updated) hm]
    rfl
  unfold analyze EStateM.run
  generalize w.walkBody body w.initial = r at hwalk
  generalize (w.withRules .updated).walkBody body (w.withRules .updated).initial = r' at hwalk
  cases hwalk with
  | ok h =>
    obtain ⟨rfl, hl, ht⟩ := h
    obtain ⟨hd', hh'⟩ := ht.findings hd hh
    have hended (s : State) (name : String) (n k : Nat) :
        (s.note (.finished name n k)).journal.diagnostics = s.journal.diagnostics := by
      simp [State.note, Journal.push, Journal.diagnostics, Event.diagnostic?]
    constructor
    · dsimp only
      rw [hl, hh']
    · unfold Report.diagnostics
      dsimp only
      rw [hended, hended, hd']
  | error h =>
    exact ⟨rfl, (h.findings hd hh).1⟩

end Walker

/-- Without by-ref parameters, of the method or of anything that it calls, and without ref fields,
both sets of rules give the same result and add the same diagnostics. -/
theorem analyzeInto_rules_agree {body : Body}
    (hp : ∀ p ∈ body.method.signature ++ body.nodes.flatMap Node.params, p.passing = .byValue)
    (hf : ∀ f ∈ body.nodes.flatMap Node.fields, f.passing = .byValue) (maxDepth : Nat)
    (earlier : Diagnostics) :
    analyzeInto earlier body ⟨.legacy, maxDepth⟩ =
      analyzeInto earlier body ⟨.updated, maxDepth⟩ := by
  let w : Walker := { setting := ⟨.legacy, body.method⟩, limit := maxDepth }
  have hm : ∀ p ∈ w.setting.method.signature, p.passing = .byValue :=
    fun p h => hp p (List.mem_append_left _ h)
  have hfree : ∀ n ∈ body.nodes, n.RefFree := by
    intro n hn
    constructor
    · exact fun p h => hp p (List.mem_append_right _ (List.mem_flatMap.mpr ⟨n, hn, h⟩))
    · exact fun f h => hf f (List.mem_flatMap.mpr ⟨n, hn, h⟩)
  obtain ⟨hresult, hdiagnostics⟩ := Walker.analyze_mirrored hm rfl body.stmts
    fun p hp => ⟨_, body.throughout hfree hp⟩
  exact Prod.ext hresult (congrArg (earlier ++ ·) hdiagnostics)

/-- A reference to a local is kept in another local, passed on as an argument, assigned again and
returned. Both sets of rules report the return. -/
theorem analyzeInto_rules_agree_aliases :
    let x : Local := { id := 0, name := "x", ty := .int, span := default }
    let r : Local := { id := 1, name := "r", ty := .int, passing := .byRef, span := default }
    let p : Param := { name := "p", ty := .int, span := default }
    let g : Method := { name := "g", params := [p], returnTy := .void, span := default }
    let f : Method := { name := "f", returnTy := .int, returnPassing := .byRef, span := default }
    let useX : Expr := ⟨.localVar x, .int, default⟩
    let useR : Expr := ⟨.localVar r, .int, default⟩
    let body : Body :=
      ⟨f, [.declare ⟨x, none⟩, .declare ⟨r, some useX⟩,
        .eval ⟨.call none g [⟨useX, .byRef⟩], .void, default⟩,
        .eval ⟨.assignment useR useX true, .int, default⟩, .ret (some useR)]⟩
    (analyzeInto {} body ⟨.legacy, 16⟩).2.codes = [.ofViolation .refReturnLocal .checked] ∧
      analyzeInto {} body ⟨.legacy, 16⟩ = analyzeInto {} body ⟨.updated, 16⟩ := by
  intro x r p g f useX useR body
  have hparams : ∀ p ∈ body.method.signature ++ body.nodes.flatMap Node.params,
      p.passing = .byValue := by decide
  have hfields : ∀ f ∈ body.nodes.flatMap Node.fields, f.passing = .byValue := by decide
  exact ⟨by decide, analyzeInto_rules_agree hparams hfields 16 {}⟩

end RefLifetime
