import RefLifetime.Proofs.Contract

/-!
# What a callee may return

Inside a method, a parameter may be returned if its scope reaches the scope of a return. At a call
of the method, the result may carry an argument if the argument flows into it. The two belong
together: whatever the callee may return is accounted for by the scope of the call.
-/

namespace RefLifetime

namespace Invocation

/-- Blame takes the narrower scope. -/
theorem depth_blame (i : Nat) (found : Scope × Option Nat) (scope : Scope) :
    (blame i found scope).1.depth = max found.1.depth scope.depth := by
  unfold blame
  split
  · next h =>
    simp only [Scope.narrowerThan, Scope.lt_def, decide_eq_true_eq] at h ⊢
    omega
  · next h =>
    simp only [Scope.narrowerThan, Scope.lt_def, decide_eq_true_eq] at h
    omega

/-- What is found among some scopes is at least as narrow as each of them. -/
theorem le_foldl_blame (i : Nat) (scopes : List Scope) (found : Scope × Option Nat) :
    found.1 ≤ (scopes.foldl (blame i) found).1 ∧
      ∀ scope ∈ scopes, scope ≤ (scopes.foldl (blame i) found).1 := by
  induction scopes generalizing found with
  | nil => exact ⟨Nat.le_refl _, fun _ h => by cases h⟩
  | cons first rest ih =>
    obtain ⟨hfound, hrest⟩ := ih (blame i found first)
    have hd := depth_blame i found first
    simp only [Scope.le_def] at hfound hrest ⊢
    rw [List.foldl_cons]
    refine ⟨by omega, List.forall_mem_cons.mpr ⟨by omega, hrest⟩⟩

/-- The search stops at a scope that is as narrow as the block, or it has come by all that flows. -/
theorem escapeFrom_covers (block : Scope) (flows : List (Option (List Scope))) (i : Nat)
    (found : Scope × Option Nat) :
    found.1 ≤ (escapeFrom block i found flows).1 ∧
      (block ≤ (escapeFrom block i found flows).1 ∨
        ∀ scopes, some scopes ∈ flows → ∀ scope ∈ scopes,
          scope ≤ (escapeFrom block i found flows).1) := by
  induction flows generalizing i found with
  | nil => exact ⟨Nat.le_refl _, .inr fun _ h => by cases h⟩
  | cons first rest ih =>
    cases first with
    | none =>
      obtain ⟨hf, hr⟩ := ih (i + 1) found
      refine ⟨hf, hr.imp_right fun hr scopes hm => hr scopes ?_⟩
      simpa using hm
    | some own =>
      obtain ⟨hf, ho⟩ := le_foldl_blame i own found
      unfold escapeFrom
      dsimp only
      by_cases hb : block ≤ (own.foldl (blame i) found).1
      · rw [if_pos hb]
        exact ⟨hf, .inl hb⟩
      · rw [if_neg hb]
        obtain ⟨hf', hr⟩ := ih (i + 1) (own.foldl (blame i) found)
        refine ⟨Nat.le_trans hf hf', hr.imp_right fun hr scopes hm scope hs => ?_⟩
        rcases List.mem_cons.mp hm with hm | hm
        · obtain rfl := Option.some.inj hm
          exact Nat.le_trans (ho scope hs) hf'
        · exact hr scopes hm scope hs

/-- Nothing that flows is lost by stopping early, as long as nothing is narrower than the block. -/
theorem le_escapeFrom {block : Scope} {flows : List (Option (List Scope))}
    (h : ∀ scopes, some scopes ∈ flows → ∀ scope ∈ scopes, scope ≤ block) (i : Nat)
    (found : Scope × Option Nat) :
    ∀ scopes, some scopes ∈ flows → ∀ scope ∈ scopes,
      scope ≤ (escapeFrom block i found flows).1 := by
  obtain ⟨-, hstop | hall⟩ := escapeFrom_covers block flows i found
  · exact fun scopes hm scope hs => Nat.le_trans (h scopes hm scope hs) hstop
  · exact hall

/-- The arguments once the variables among them have their scope. -/
def resolved (rules : Rules) (block : Scope) (given : List Actual) : List Actual :=
  infer (inferredScope block (contributions rules given)) given

end Invocation

/-- The scopes of the argument reach no further inward than `block`. -/
def Actual.Reaches (block : Scope) (a : Actual) : Prop :=
  a.value ≤ block ∧ ∀ ref, a.ref = some ref → ref ≤ block

/-- The argument is passed as its parameter expects. -/
def Actual.Fits (a : Actual) : Prop :=
  ∀ p, a.param = some p → a.passing.isByRef = p.passing.isByRef

/-! ### Both sides of a call -/

namespace Param

variable {p : Param} {rules : Rules}

/-- A parameter whose value may be returned lets the value of its argument flow. -/
theorem modifier_of_returnable
    (h : (p.valueScope rules).convertibleTo rules.returnScope = true) :
    (p.modifier != .scopedValue) = true := by
  have hne : p.modifier ≠ .scopedValue := by
    intro hm
    have hscope : p.valueScope rules = .currentMethod := by simp [valueScope, hm]
    rw [hscope] at h
    cases rules <;> cases h
  simpa using hne

/-- A parameter whose location may be returned is one that the callee may keep. -/
theorem mayCaptureRef_of_returnable
    (h : (p.refScope rules).convertibleTo rules.returnScope = true) :
    p.mayCaptureRef rules = true := by
  have hscope : ¬ Scope.currentMethod.convertibleTo rules.returnScope = true := by
    cases rules <;> decide
  unfold refScope at h
  split at h
  · exact absurd h hscope
  · next hp =>
    rw [Bool.or_eq_true, decide_eq_true_eq, decide_eq_true_eq, not_or] at hp
    have hc : (rules.isUpdated && p.isImplicitlyScoped) = false := by
      cases rules with
      | legacy => rfl
      | updated =>
        dsimp only at h
        split at h
        · exact absurd h hscope
        · next hi => simpa [Rules.isUpdated] using hi
    simp [mayCaptureRef, Passing.isByRef, hp.1, hp.2, hc]

end Param

namespace Rule

/-- Evaluates the receiver and the arguments of a call. -/
def evaluated (callee : Method) (receiver : Option Expr) (args : List Argument)
    (demand : Demand) : Plan (List Actual) := do
  let own ← receiverActual callee receiver demand
  let given ← actuals callee args demand
  return own ++ given

end Rule

/-- Whatever the state, the plan succeeds with this result. -/
def Plan.Ends {α : Type} (visit : Visitor) (mood : Mood) (p : Plan α) (a : α) : Prop :=
  ∀ s, ∃ s', p.run visit mood s = .ok a s'

namespace Rule

open Plan (Ends)

variable {visit : Visitor} {mood : Mood}

/-- A plan goes on after one that succeeds. -/
theorem run_bind_ok {α β : Type} {p : Plan α} {f : α → Plan β} {a : α} {s s' : State}
    (h : p.run visit mood s = .ok a s') :
    (p >>= f).run visit mood s = (f a).run visit mood s' := by
  rw [Plan.run_bind, Walk.bind_apply, h]
  rfl

private theorem ends_bind {α β : Type} {p : Plan α} {f : α → Plan β} {a : α} {b : β}
    (h : p.Ends visit mood a) (hf : (f a).Ends visit mood b) : (p >>= f).Ends visit mood b := by
  intro s
  obtain ⟨s₁, h₁⟩ := h s
  rw [run_bind_ok h₁]
  exact hf s₁

private theorem declareOutVars_ends (demand : Demand) (scope : Scope) (given : List Actual) :
    (declareOutVars demand scope given).Ends visit mood () := by
  induction given with
  | nil => exact fun s => ⟨s, rfl⟩
  | cons a rest ih =>
    intro s
    unfold declareOutVars
    cases a.outVar with
    | none => exact ih s
    | some var =>
      change ∃ s', (Plan.lookup _ _).run visit mood s = .ok () s'
      rw [Plan.run_lookup]
      cases s.lifetimes.get? var.id with
      | none => exact ih _
      | some lifetime => exact ih s

private theorem reportAll_ends (findings : List Finding) :
    (reportAll findings).Ends visit mood () := by
  induction findings with
  | nil => exact fun s => ⟨s, rfl⟩
  | cons finding rest ih => exact fun s => ih _

private theorem hintAll_ends (ids : List Nat) : (hintAll ids).Ends visit mood () := by
  induction ids with
  | nil => exact fun s => ⟨s, rfl⟩
  | cons id rest ih => exact fun s => ih _

/-- The check of a call site succeeds and gives declared variables their scope. -/
theorem callSite_ends (rules : Rules) (callee : Method) (demand : Demand) (given : List Actual) :
    (callSite rules callee demand given).Ends visit mood
      (Invocation.resolved rules demand.block given) :=
  ends_bind (declareOutVars_ends demand _ given) <| ends_bind (reportAll_ends _) <|
    ends_bind (reportAll_ends _) <| ends_bind (hintAll_ends _) fun s => ⟨s, rfl⟩

private theorem settle_ends (demand : Demand) (scope : Scope) (finding : Finding) :
    (Plan.settle demand scope finding).Ends visit mood scope := by
  intro s
  unfold Plan.settle Plan.reportIf
  split
  · exact ⟨_, rfl⟩
  · exact ⟨_, rfl⟩

/-- Once its arguments are evaluated, a call that can carry something answers with what flows from
them. -/
theorem call_ends (rules : Rules) {e : Expr} {receiver : Option Expr} {callee : Method}
    {args : List Argument} {demand : Demand}
    (hc : (if demand.isRef then callee.returnsByRef else e.ty.isRefLike) = true)
    {given : List Actual} {s s₁ : State}
    (h : (evaluated callee receiver args demand).run visit mood s = .ok given s₁) :
    ∃ s', (call rules e receiver callee args demand).run visit mood s =
      .ok (Invocation.escape rules e.ty demand
        (Invocation.resolved rules demand.block given)).1 s' := by
  have hcall : call rules e receiver callee args demand =
      (evaluated callee receiver args demand >>= fun given => do
        let bound ← callSite rules callee demand given
        Plan.settle demand (Invocation.escape rules e.ty demand bound).1
          ⟨.ofCallResult demand.isRef, e.span, [callee.name,
            Invocation.culpritName bound (Invocation.escape rules e.ty demand bound).2]⟩) := by
    simp only [call, evaluated, bind_assoc, pure_bind, hc, if_true]
  rw [hcall, run_bind_ok h]
  exact ends_bind (callSite_ends rules callee demand given) (settle_ends demand _ _) s₁

/-- Arguments that were evaluated are bound to parameters of the callee, and those passed by
reference have a location. -/
theorem evaluated_sound {callee : Method} {receiver : Option Expr} {args : List Argument}
    {demand : Demand} {given : List Actual} {s s₁ : State}
    (h : (evaluated callee receiver args demand).run visit mood s = .ok given s₁) :
    ∀ a ∈ given, a.Sound (fun _ => True) callee.signature (Argument.outVars receiver args) := by
  -- Nothing is counted on, so any node and any way of meeting the visits will do.
  let c : Contract := (Node.stmt .empty).contract (fun _ => True) demand.block
  have hm : c.Met visit mood fun _ => True := by
    refine ⟨fun route part asked inner s _ _ => ?_, fun _ _ _ _ _ => ⟨trivial, trivial⟩,
      fun _ _ _ _ _ => trivial, fun _ _ _ => trivial⟩
    generalize visit route part asked (inner.within mood) s = r
    cases r with
    | ok scope s' => exact .ok ⟨fun _ => trivial, trivial⟩
    | error e s' => exact .error trivial
  have hc := Scope.closed_true demand.block
  have hh : (evaluated callee receiver args demand).Honours c fun given =>
      ∀ a ∈ given, a.Sound (fun _ => True) callee.signature (Argument.outVars receiver args) := by
    refine (receiverActual_honours hc callee receiver args rfl).bind fun own ho => ?_
    refine (actuals_honours hc callee receiver args rfl).bind fun given hg => ?_
    exact List.forall_mem_append.mpr ⟨ho, hg⟩
  have hr := hh.run hm (s := s) trivial
  rw [h] at hr
  cases hr with
  | ok hr => exact hr.1

end Rule

/-! ### Calls -/

/-- An argument flows into the result of the call as far as its parameter may be returned. -/
theorem Actual.flows_of_returnable {rules : Rules} {a : Actual} {p : Param}
    (hp : a.param = some p) (hs : a.passing.isByRef = true → a.ref.isSome = true)
    (hf : a.passing.isByRef = p.passing.isByRef) (capturesRefs : Bool) :
    ∃ scopes, a.flows? rules capturesRefs = some scopes ∧
      ((p.valueScope rules).convertibleTo rules.returnScope = true → a.value ∈ scopes) ∧
      ((p.refScope rules).convertibleTo rules.returnScope = true → capturesRefs = true →
        ∃ ref, a.ref = some ref ∧ ref ∈ scopes) := by
  refine ⟨_, by rw [flows?, hp]; rfl, fun hv => ?_, fun hr hc => ?_⟩
  · refine List.mem_append_left _ ?_
    rw [if_pos (Param.modifier_of_returnable hv)]
    exact List.mem_singleton.mpr rfl
  · have hm := Param.mayCaptureRef_of_returnable hr
    have hby : p.passing.isByRef = true := by
      simp only [Param.mayCaptureRef, Bool.and_eq_true] at hm
      exact hm.1.1
    obtain ⟨ref, href⟩ := Option.isSome_iff_exists.mp (hs (hf.trans hby))
    refine ⟨ref, href, List.mem_append_right _ ?_⟩
    simp [href, hc, hm]

/-- Giving declared variables their scope changes nothing in how arguments are passed. -/
theorem Invocation.infer_fits (scope : Scope) {given : List Actual} (h : ∀ a ∈ given, a.Fits) :
    ∀ a ∈ infer scope given, a.Fits := by
  intro a ha
  obtain ⟨b, hb, rfl⟩ := List.mem_map.mp ha
  have hfits := h b hb
  split
  · exact hfits
  · exact hfits

/-- The scope of an invocation is no wider than anything that flows into its result. -/
theorem Invocation.le_escape {rules : Rules} {ty : Ty} {demand : Demand} {params : List Param}
    {locals : List Local} {bound : List Actual}
    (h : ∀ a ∈ bound, a.Sound (· ≤ demand.block) params locals) {a : Actual} (ha : a ∈ bound)
    {scopes : List Scope}
    (hf : a.flows? rules (demand.isRef || !rules.isUpdated || ty.holdsRefs) = some scopes) :
    ∀ scope ∈ scopes, scope ≤ (escape rules ty demand bound).1 := by
  refine le_escapeFrom (fun own hm => ?_) 0 (.callingMethod, none) scopes
    (List.mem_map.mpr ⟨a, ha, hf⟩)
  obtain ⟨b, hb, hf⟩ := List.mem_map.mp hm
  exact (h b hb).flows hf

namespace Walker

/-- What a callee may return, its callers account for. A call whose receiver and arguments are
evaluated to scopes convertible to its block, each passed as its parameter expects, succeeds, and
its scope is remembered. If the call carries something, then of every argument bound to a parameter
that may be returned from the callee the scope of the call is no wider than the value, and no wider
than the location if the call is asked for one or its type can hold references. -/
theorem call_accounts_for_returns (w : Walker) (levels : Nat) (mood : Mood) (path : Path)
    (demand : Demand) {e : Expr} {receiver : Option Expr} {callee : Method} {args : List Argument}
    {given : List Actual} {s s₁ : State} (hform : e.form = .call receiver callee args)
    (hcarries : (if demand.isRef then callee.returnsByRef else e.ty.isRefLike) = true)
    (hnew : w.remembered s path demand mood.quiet = none)
    (heval : (Rule.evaluated callee receiver args demand).run
      (fun route part asked inner => w.visit levels inner (path ++ route) part asked) mood
      (s.note (.visited path demand mood.quiet false)) = .ok given s₁)
    (hreaches : ∀ a ∈ given, a.Reaches demand.block) (hfits : ∀ a ∈ given, a.Fits) :
    ∃ scope s', w.visit (levels + 1) mood path (.expr e) demand s = .ok scope s' ∧
      s'.memo.get? path demand = some ⟨scope, mood.quiet⟩ ∧
      ∀ a ∈ Invocation.resolved w.setting.rules demand.block given, ∀ p, a.param = some p →
        ((p.valueScope w.setting.rules).convertibleTo w.setting.rules.returnScope = true →
          a.value ≤ scope) ∧
        ((p.refScope w.setting.rules).convertibleTo w.setting.rules.returnScope = true →
          demand.isRef = true ∨ e.ty.holdsRefs = true → ∃ ref, a.ref = some ref ∧ ref ≤ scope) := by
  have hgiven : ∀ a ∈ given, a.Sound (· ≤ demand.block) callee.signature
      (Argument.outVars receiver args) := by
    intro a ha
    have hs := Rule.evaluated_sound heval a ha
    exact ⟨hs.param, hs.outVar, (hreaches a ha).1, (hreaches a ha).2, hs.isSome⟩
  have hbound : ∀ a ∈ Invocation.resolved w.setting.rules demand.block given,
      a.Sound (· ≤ demand.block) callee.signature (Argument.outVars receiver args) := by
    refine Invocation.infer_sound (S := (· ≤ demand.block)) ?_ hgiven
    exact Invocation.inferredScope_of (S := (· ≤ demand.block)) (Nat.zero_le _) _
      (Invocation.contributions_of hgiven)
  obtain ⟨s₂, hcall⟩ := Rule.call_ends w.setting.rules hcarries heval
  generalize hscope : (Invocation.escape w.setting.rules e.ty demand
    (Invocation.resolved w.setting.rules demand.block given)).1 = scope at hcall
  refine ⟨scope, s₂.remember path demand ⟨scope, mood.quiet⟩, ?_, ?_, fun a ha p hp => ?_⟩
  · rw [visit_computed w hnew, compute_succ]
    simp only [Rule.node, Rule.expr, hform]
    rw [hcall]
    rfl
  · simp [State.remember, Memo.get?_insert]
  · have hfit := Invocation.infer_fits _ hfits a ha p hp
    obtain ⟨scopes, hflows, hvalue, href⟩ := Actual.flows_of_returnable hp (hbound a ha).isSome hfit
      (demand.isRef || !w.setting.rules.isUpdated || e.ty.holdsRefs)
    have hle := Invocation.le_escape hbound ha hflows
    rw [hscope] at hle
    refine ⟨fun hv => hle _ (hvalue hv), fun hr hc => ?_⟩
    obtain ⟨ref, hsome, hmem⟩ := href hr (by rcases hc with hc | hc <;> simp [hc])
    exact ⟨ref, hsome, hle ref hmem⟩

/-- In a nested block, a call is asked for the location that it returns. Its first argument may be
returned by the callee, so the call lives no longer than that one. The second is scoped and counts
for nothing, though it lives in the block only: the call lives exactly as long as the first. -/
theorem call_accounts_for_returns_forwarded :
    let x : Local := { id := 0, name := "x", ty := .int, span := default }
    let y : Local := { id := 1, name := "y", ty := .int, span := default }
    let p : Param := { name := "p", ty := .int, passing := .byRef, span := default }
    let q : Param :=
      { name := "q", ty := .int, passing := .byRef, modifier := .scopedRef, span := default }
    let callee : Method :=
      { name := "pick", params := [p, q], returnTy := .int, returnPassing := .byRef,
        span := default }
    let args : List Argument :=
      [⟨⟨.localVar x, .int, default⟩, .byRef⟩, ⟨⟨.localVar y, .int, default⟩, .byRef⟩]
    let e : Expr := ⟨.call none callee args, .int, default⟩
    let w : Walker := ⟨⟨.updated, callee⟩, 8, true⟩
    let s : State :=
      { lifetimes := (Lifetimes.empty.insert 0 ⟨.currentMethod, .callingMethod⟩).insert 1
          ⟨.block 1, .callingMethod⟩ }
    let demand : Demand := ⟨.block 1, .ref, .returnOnly⟩
    (p.refScope .updated).convertibleTo Rules.updated.returnScope = true ∧
      (q.refScope .updated).convertibleTo Rules.updated.returnScope = false ∧
      ∃ scope s', w.visit 8 {} [] (.expr e) demand s = .ok scope s' ∧
        Scope.currentMethod ≤ scope ∧ scope = .currentMethod := by
  intro x y p q callee args e w s demand
  let given : List Actual :=
    [⟨⟨.localVar x, .int, default⟩, some p, .byRef, none, .callingMethod, some .currentMethod⟩,
      ⟨⟨.localVar y, .int, default⟩, some q, .byRef, none, .callingMethod, some (.block 1)⟩]
  have hreaches : ∀ a ∈ given, a.Reaches demand.block := by
    intro a ha
    simp only [given, List.mem_cons, List.not_mem_nil, or_false] at ha
    rcases ha with rfl | rfl
    · exact ⟨by decide, fun ref h => Option.some.inj h ▸ by decide⟩
    · exact ⟨by decide, fun ref h => Option.some.inj h ▸ by decide⟩
  have hfits : ∀ a ∈ given, a.Fits := by
    intro a ha
    simp only [given, List.mem_cons, List.not_mem_nil, or_false] at ha
    rcases ha with rfl | rfl
    · exact fun r h => Option.some.inj h ▸ rfl
    · exact fun r h => Option.some.inj h ▸ rfl
  have hform : e.form = .call none callee args := rfl
  have hnew : w.remembered s [] demand false = none := rfl
  obtain ⟨scope, s', hv, -, ha⟩ :=
    w.call_accounts_for_returns 7 {} [] demand hform rfl hnew rfl hreaches hfits
  refine ⟨by decide, by decide, scope, s', hv, ?_, ?_⟩
  · obtain ⟨ref, href, hle⟩ := (ha _ List.mem_cons_self p rfl).2 (by decide) (.inl rfl)
    cases href
    exact hle
  · obtain ⟨t, ht⟩ : ∃ t, w.visit 8 {} [] (.expr e) demand s = .ok .currentMethod t := ⟨_, rfl⟩
    cases hv.symm.trans ht
    rfl

end Walker

end RefLifetime
