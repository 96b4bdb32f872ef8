import RefLifetime.Proofs.Introduced

/-!
# What arguments contribute

`Actual.Brings` says what an argument brings to what the callee may store, and `Actual.Flows` what
the result may carry of it. Both searches through the arguments stop at a scope that is as narrow as
the block. As long as no argument is narrower than the block they find the narrowest scope all the
same, and the search behind the result finds the first argument from which that scope flows
(`Invocation.stopping_early_loses_nothing`).
-/

namespace RefLifetime

/-! ### The narrowest of some scopes -/

namespace Scope

/-- The narrowest of the calling method and the scopes that satisfy `P`. -/
structure Narrowest (P : Scope → Prop) (scope : Scope) : Prop where
  attained : scope = .callingMethod ∨ P scope
  le : ∀ other, P other → other ≤ scope

/-- Scopes that are told apart by their depths: no block is as deep as the method body or so deep
that its depth is cut off. -/
def Canonical : Scope → Prop
  | block level => 1 ≤ level.toNat ∧ bodyDepth + level.toNat < maxDepth
  | _ => True

/-- Whether a scope is canonical can be read off its level. -/
instance : DecidablePred Canonical
  | block level => inferInstanceAs (Decidable (1 ≤ level.toNat ∧ _))
  | callingMethod | returnOnly | currentMethod | unused => inferInstanceAs (Decidable True)

variable {P : Scope → Prop} {scope other : Scope}

/-- A canonical scope is given back by its depth. -/
theorem Canonical.ofDepth_depth (h : scope.Canonical) : ofDepth scope.depth = scope := by
  cases scope with
  | callingMethod | returnOnly | currentMethod | unused => rfl
  | block level =>
    obtain ⟨hpos, hlt⟩ := h
    have hdepth : (block level).depth = bodyDepth + level.toNat := by
      rw [depth]
      omega
    rw [hdepth]
    simp only [bodyDepth] at hlt ⊢
    rw [ofDepth, if_neg (by omega), if_neg (by omega), if_neg (by simp only [bodyDepth]; omega),
      if_neg (by omega), bodyDepth, Nat.add_sub_cancel_left]
    simp

/-- Of scopes that are told apart by their depths only one is the narrowest. -/
theorem Narrowest.unique (h : Narrowest P scope) (h' : Narrowest P other)
    (hP : ∀ found, P found → found.Canonical) : scope = other := by
  have hcanonical {found : Scope} (h : Narrowest P found) : found.Canonical := by
    rcases h.attained with rfl | hp
    · trivial
    · exact hP found hp
  have hle {a b : Scope} (ha : Narrowest P a) (hb : Narrowest P b) : a.depth ≤ b.depth := by
    rcases ha.attained with rfl | hp
    · exact Nat.zero_le _
    · exact hb.le a hp
  rw [← (hcanonical h).ofDepth_depth, ← (hcanonical h').ofDepth_depth,
    Nat.le_antisymm (hle h h') (hle h' h)]

/-- The join of a list is its narrowest member, or the calling method. -/
theorem joinAll_narrowest (scopes : List Scope) : Narrowest (· ∈ scopes) (joinAll scopes) where
  attained := joinAll_of (S := fun scope => scope = .callingMethod ∨ scope ∈ scopes) (.inl rfl)
    fun _ h => .inr h
  le other h := by
    have hself := narrowerThan_self (joinAll scopes)
    rw [joinAll_narrowerThan, List.any_eq_false] at hself
    simpa [narrowerThan, lt_def, le_def] using hself other h

/-- It matters only which scopes there are to choose from. -/
theorem Narrowest.congr {Q : Scope → Prop} (h : Narrowest P scope)
    (hPQ : ∀ other, P other ↔ Q other) : Narrowest Q scope where
  attained := h.attained.imp_right (hPQ scope).mp
  le other hq := h.le other ((hPQ other).mpr hq)

end Scope

/-! ### What a single argument contributes -/

namespace Actual

/-- What an argument brings to what the callee may store: its value (`false`) if that is ref-like,
and under the updated rules its location (`true`) if the callee may keep it. -/
inductive Brings (rules : Rules) (a : Actual) : Bool → Scope → Prop
  | value {p : Param} (hp : a.param = some p) (ho : a.outVar = none)
      (hty : a.expr.ty.isRefLike = true) (hm : p.modifier ≠ .scopedValue) :
      Brings rules a false a.value
  | location {p : Param} {ref : Scope} (hp : a.param = some p) (ho : a.outVar = none)
      (hr : rules = .updated) (href : a.ref = some ref) (hc : p.mayCaptureRef rules = true) :
      Brings rules a true ref

/-- What the result of an invocation may carry of an argument: its value, and its location if the
result captures locations and the callee may keep this one. -/
inductive Flows (rules : Rules) (captures : Bool) (a : Actual) : Scope → Prop
  | value {p : Param} (hp : a.param = some p) (hm : p.modifier ≠ .scopedValue) :
      Flows rules captures a a.value
  | location {p : Param} {ref : Scope} (hp : a.param = some p) (hcaptures : captures = true)
      (href : a.ref = some ref) (hc : p.mayCaptureRef rules = true) : Flows rules captures a ref

variable {rules : Rules} {captures : Bool} {a : Actual} {scope : Scope}

private theorem mem_contributions {i : Nat} {c : Contribution} :
    c ∈ a.contributions rules i ↔ c.source = i ∧ a.Brings rules c.viaRef c.scope := by
  constructor
  · intro h
    unfold contributions at h
    split at h
    · next p hp ho =>
      rcases List.mem_append.mp h with h | h
      · split at h
        · next hv =>
          simp only [Bool.and_eq_true, bne_iff_ne] at hv
          obtain rfl := List.mem_singleton.mp h
          exact ⟨rfl, .value hp ho hv.1 hv.2⟩
        · cases h
      · split at h
        · next ref href =>
          split at h
          · next hc =>
            rw [Bool.and_eq_true] at hc
            obtain rfl := List.mem_singleton.mp h
            have hr : rules = .updated := by
              cases rules with
              | legacy => cases hc.1
              | updated => rfl
            exact ⟨rfl, .location hp ho hr href hc.2⟩
          · cases h
        · cases h
    · cases h
  · obtain ⟨source, scope, viaRef⟩ := c
    rintro ⟨rfl, h⟩
    cases h with
    | value hp ho hty hm => simp [contributions, hp, ho, hty, hm]
    | location hp ho hr href hc =>
      subst hr
      simp [contributions, hp, ho, href, hc, Rules.isUpdated]

/-- What flows from an argument is what the rule computes. -/
theorem flows_iff : a.Flows rules captures scope ↔
    ∃ scopes, a.flows? rules captures = some scopes ∧ scope ∈ scopes := by
  constructor
  · intro h
    cases h with
    | value hp hm => exact ⟨_, by rw [flows?, hp]; rfl, by simp [hm]⟩
    | location hp hcaptures href hc =>
      exact ⟨_, by rw [flows?, hp]; rfl, by simp [hcaptures, href, hc]⟩
  · rintro ⟨scopes, hf, hs⟩
    obtain ⟨p, hp, rfl⟩ := Option.map_eq_some_iff.mp hf
    rcases List.mem_append.mp hs with hs | hs
    · split at hs
      · next hm =>
        obtain rfl := List.mem_singleton.mp hs
        exact .value hp (by simpa using hm)
      · cases hs
    · split at hs
      · next ref href =>
        split at hs
        · next hc =>
          rw [Bool.and_eq_true] at hc
          obtain rfl := List.mem_singleton.mp hs
          exact .location hp hc.1 href hc.2
        · cases hs
      · cases hs

/-- All that an argument contributes is its value or its location. -/
theorem Brings.eq_or {viaRef : Bool} (h : a.Brings rules viaRef scope) :
    scope = a.value ∨ a.ref = some scope := by
  cases h with
  | value hp ho hty hm => exact .inl rfl
  | location hp ho hr href hc => exact .inr href

/-- Only the two scopes of an argument flow from it. -/
theorem Flows.eq_or (h : a.Flows rules captures scope) :
    scope = a.value ∨ a.ref = some scope := by
  cases h with
  | value hp hm => exact .inl rfl
  | location hp hcaptures href hc => exact .inr href

/-- Only of arguments that are bound to a parameter something flows. -/
theorem Flows.exists_param (h : a.Flows rules captures scope) : ∃ p, a.param = some p := by
  cases h with
  | value hp hm => exact ⟨_, hp⟩
  | location hp hcaptures href hc => exact ⟨_, hp⟩

private theorem Reaches.le_of_eq_or {block : Scope} (h : a.Reaches block)
    (hs : scope = a.value ∨ a.ref = some scope) : scope ≤ block := by
  rcases hs with rfl | href
  · exact h.1
  · exact h.2 scope href

/-- Both scopes of the argument are told apart by their depths from others. -/
def Canonical (a : Actual) : Prop :=
  a.value.Canonical ∧ ∀ ref, a.ref = some ref → ref.Canonical

private theorem Canonical.of_eq_or (h : a.Canonical) (hs : scope = a.value ∨ a.ref = some scope) :
    scope.Canonical := by
  rcases hs with rfl | href
  · exact h.1
  · exact h.2 scope href

end Actual

namespace Invocation

variable {rules : Rules} {captures : Bool} {block : Scope} {actuals : List Actual}

/-- The contributions are what the arguments bring, each with its position. -/
theorem mem_contributions {c : Contribution} :
    c ∈ contributions rules actuals ↔
      ∃ a, actuals[c.source]? = some a ∧ a.Brings rules c.viaRef c.scope := by
  constructor
  · intro h
    obtain ⟨⟨a, i⟩, ha, hc⟩ := List.mem_flatMap.mp h
    obtain ⟨rfl, hb⟩ := Actual.mem_contributions.mp hc
    exact ⟨a, List.mem_zipIdx_iff_getElem?.mp ha, hb⟩
  · rintro ⟨a, ha, hb⟩
    refine List.mem_flatMap.mpr ⟨(a, c.source), List.mem_zipIdx_iff_getElem?.mpr ha, ?_⟩
    exact Actual.mem_contributions.mpr ⟨rfl, hb⟩

/-- The scopes that are brought are those that some argument brings. -/
theorem mem_brought {scope : Scope} :
    scope ∈ (contributions rules actuals).map (·.scope) ↔
      ∃ a ∈ actuals, ∃ viaRef, a.Brings rules viaRef scope := by
  constructor
  · intro h
    obtain ⟨c, hc, rfl⟩ := List.mem_map.mp h
    obtain ⟨a, ha, hb⟩ := mem_contributions.mp hc
    exact ⟨a, List.mem_of_getElem? ha, c.viaRef, hb⟩
  · rintro ⟨a, ha, viaRef, hb⟩
    obtain ⟨i, hi⟩ := List.getElem?_of_mem ha
    exact List.mem_map.mpr ⟨⟨i, scope, viaRef⟩, mem_contributions.mpr ⟨a, hi, hb⟩, rfl⟩

/-! ### The scope of declared variables -/

private theorem inferredScope_narrowest (rules : Rules) (h : ∀ a ∈ actuals, a.Reaches block) :
    Scope.Narrowest (fun scope => ∃ a ∈ actuals, ∃ viaRef, a.Brings rules viaRef scope)
      (inferredScope block (contributions rules actuals)) := by
  have hreach : ∀ scope ∈ (contributions rules actuals).map (·.scope), scope ≤ block := by
    intro scope hs
    obtain ⟨a, ha, viaRef, hb⟩ := mem_brought.mp hs
    exact (h a ha).le_of_eq_or hb.eq_or
  refine Scope.Narrowest.congr (P := (· ∈ (contributions rules actuals).map (·.scope)))
    ⟨?_, ?_⟩ fun _ => mem_brought
  · exact joinUntil_of (S := fun scope => scope = .callingMethod ∨ scope ∈ _) block (.inl rfl)
      fun _ hs => .inr hs
  · obtain ⟨-, hstop | hall⟩ :=
      joinUntil_covers block ((contributions rules actuals).map (·.scope)) .callingMethod
    · exact fun scope hs => Nat.le_trans (hreach scope hs) hstop
    · exact hall

private theorem inferredScope_le (rules : Rules) (h : ∀ a ∈ actuals, a.Reaches block) :
    inferredScope block (contributions rules actuals) ≤ block := by
  rcases (inferredScope_narrowest rules h).attained with hi | ⟨a, ha, viaRef, hb⟩
  · rw [hi]
    exact Nat.zero_le _
  · exact (h a ha).le_of_eq_or hb.eq_or

private theorem inferredScope_eq_joinAll (rules : Rules) (h : ∀ a ∈ actuals, a.Reaches block)
    (hc : ∀ a ∈ actuals, a.Canonical) :
    inferredScope block (contributions rules actuals) =
      Scope.joinAll ((contributions rules actuals).map (·.scope)) := by
  refine (inferredScope_narrowest rules h).unique
    ((Scope.joinAll_narrowest _).congr fun _ => mem_brought) ?_
  rintro scope ⟨a, ha, viaRef, hb⟩
  exact (hc a ha).of_eq_or hb.eq_or

/-! ### The scope of the result -/

/-- The result of an invocation may carry locations besides values. -/
def capturesRefs (rules : Rules) (ty : Ty) (demand : Demand) : Bool :=
  demand.isRef || !rules.isUpdated || ty.holdsRefs

/-- The argument at position `k` limits what the result can carry: `scope` flows from it and nothing
narrower, and all that flows from earlier arguments is wider. -/
structure Limits (rules : Rules) (captures : Bool) (actuals : List Actual) (k : Nat)
    (scope : Scope) : Prop where
  flows : ∃ a, actuals[k]? = some a ∧ a.Flows rules captures scope ∧
    ∀ other, a.Flows rules captures other → other ≤ scope
  first : ∀ j < k, ∀ a, actuals[j]? = some a → ∀ other, a.Flows rules captures other →
    other < scope

private theorem Limits.cons {a : Actual} {k : Nat} {scope : Scope}
    (h : Limits rules captures actuals k scope)
    (ha : ∀ other, a.Flows rules captures other → other < scope) :
    Limits rules captures (a :: actuals) (k + 1) scope where
  flows := h.flows
  first j hj b hb := by
    cases j with
    | zero =>
      cases hb
      exact ha
    | succ j => exact h.first j (by omega) b hb

/-- What is found among the scopes of one argument is what was found before, or one of them that is
narrower. -/
theorem foldl_blame_cases (i : Nat) (scopes : List Scope) (found : Scope × Option Nat) :
    scopes.foldl (blame i) found = found ∨
      ∃ scope ∈ scopes, found.1 < scope ∧ scopes.foldl (blame i) found = (scope, some i) := by
  induction scopes generalizing found with
  | nil => exact .inl rfl
  | cons first rest ih =>
    rw [List.foldl_cons]
    by_cases hn : first.narrowerThan found.1 = true
    · have hlt : found.1 < first := of_decide_eq_true hn
      rw [blame, if_pos hn]
      rcases ih (first, some i) with h | ⟨scope, hs, hlt', h⟩
      · exact .inr ⟨first, List.mem_cons_self, hlt, h⟩
      · exact .inr ⟨scope, List.mem_cons_of_mem _ hs, Nat.lt_trans hlt hlt', h⟩
    · rw [blame, if_neg hn]
      rcases ih found with h | ⟨scope, hs, h⟩
      · exact .inl h
      · exact .inr ⟨scope, List.mem_cons_of_mem _ hs, h⟩

/-- The search keeps what was found before, or ends with the argument that limits the rest. -/
theorem escapeFrom_cases (rules : Rules) (captures : Bool) (block : Scope) (i : Nat)
    (found : Scope × Option Nat) (actuals : List Actual) :
    let result := escapeFrom block i found (actuals.map (·.flows? rules captures))
    result = found ∨ ∃ k, result.2 = some (i + k) ∧ found.1 < result.1 ∧
      Limits rules captures actuals k result.1 := by
  intro result
  induction actuals generalizing i found with
  | nil => exact .inl rfl
  | cons a rest ih =>
    cases hf : a.flows? rules captures with
    | none =>
      have hresult : result =
          escapeFrom block (i + 1) found (rest.map (·.flows? rules captures)) := by
        simp only [result, List.map_cons, hf, escapeFrom]
      have hnone : ∀ other, ¬ a.Flows rules captures other := by
        intro other h
        obtain ⟨scopes, hs, -⟩ := Actual.flows_iff.mp h
        rw [hf] at hs
        cases hs
      rw [hresult]
      rcases ih (i + 1) found with h | ⟨k, hk, hlt, hl⟩
      · exact .inl h
      · refine .inr ⟨k + 1, ?_, hlt, hl.cons fun other h => absurd h (hnone other)⟩
        rw [hk, Nat.add_assoc, Nat.add_comm 1 k]
    | some own =>
      have hmem (scope : Scope) : a.Flows rules captures scope ↔ scope ∈ own := by
        simp [Actual.flows_iff, hf]
      let reached := own.foldl (blame i) found
      obtain ⟨hfound, hown⟩ := le_foldl_blame i own found
      -- What this argument leads to is found before, or the argument itself limits it.
      have hreached : reached = found ∨ reached.2 = some i ∧ found.1 < reached.1 ∧
          Limits rules captures (a :: rest) 0 reached.1 := by
        rcases foldl_blame_cases i own found with h | ⟨scope, hs, hlt, h⟩
        · exact .inl h
        · change reached = _ at h
          rw [h]
          refine .inr ⟨rfl, hlt, ⟨a, rfl, (hmem scope).mpr hs, fun other ho => ?_⟩,
            fun j hj => by omega⟩
          have hle := hown other ((hmem other).mp ho)
          change other ≤ reached.1 at hle
          rwa [h] at hle
      have hresult : result = if block ≤ reached.1 then reached else
          escapeFrom block (i + 1) reached (rest.map (·.flows? rules captures)) := by
        simp only [result, List.map_cons, hf, escapeFrom, reached]
      rw [hresult]
      have hhead {r : Scope × Option Nat} (h : r = reached) : r = found ∨ ∃ k,
          r.2 = some (i + k) ∧ found.1 < r.1 ∧
            Limits rules captures (a :: rest) k r.1 := by
        rw [h]
        exact hreached.imp_right fun h => ⟨0, h⟩
      split
      · exact hhead rfl
      · rcases ih (i + 1) reached with h | ⟨k, hk, hlt, hl⟩
        · exact hhead h
        · refine .inr ⟨k + 1, ?_, Nat.lt_of_le_of_lt hfound hlt, hl.cons fun other ho => ?_⟩
          · rw [hk, Nat.add_assoc, Nat.add_comm 1 k]
          · exact Nat.lt_of_le_of_lt (hown other ((hmem other).mp ho)) hlt

/-- Nobody is to blame for a result without a limit, and any other is due to the argument that
limits it. -/
theorem escape_cases (rules : Rules) (ty : Ty) (demand : Demand) (actuals : List Actual) :
    escape rules ty demand actuals = (.callingMethod, none) ∨
      ∃ k, (escape rules ty demand actuals).2 = some k ∧
        .callingMethod < (escape rules ty demand actuals).1 ∧
        Limits rules (capturesRefs rules ty demand) actuals k
          (escape rules ty demand actuals).1 := by
  have h := escapeFrom_cases rules (capturesRefs rules ty demand) demand.block 0
    (.callingMethod, none) actuals
  simp only [Nat.zero_add] at h
  exact h

private theorem escape_narrowest (ty : Ty) {demand : Demand}
    (h : ∀ a ∈ actuals, a.Reaches demand.block) :
    Scope.Narrowest (fun scope => ∃ a ∈ actuals, a.Flows rules (capturesRefs rules ty demand) scope)
      (escape rules ty demand actuals).1 where
  attained := by
    rcases escape_cases rules ty demand actuals with hnone | ⟨k, -, -, hlimits⟩
    · exact .inl (congrArg Prod.fst hnone)
    · obtain ⟨a, ha, hflows, -⟩ := hlimits.flows
      exact .inr ⟨a, List.mem_of_getElem? ha, hflows⟩
  le other := by
    rintro ⟨a, ha, hflows⟩
    obtain ⟨scopes, hf, hs⟩ := Actual.flows_iff.mp hflows
    refine le_escapeFrom (fun own hown scope hscope => ?_) 0 (.callingMethod, none) scopes
      (List.mem_map.mpr ⟨a, ha, hf⟩) other hs
    obtain ⟨b, hb, hf⟩ := List.mem_map.mp hown
    exact (h b hb).le_of_eq_or (Actual.flows_iff.mpr ⟨own, hf, hscope⟩).eq_or

/-- Nobody is to blame for a result without a limit, and only for that. -/
theorem escape_culprit_eq_none_iff (rules : Rules) (ty : Ty) (demand : Demand)
    (actuals : List Actual) :
    (escape rules ty demand actuals).2 = none ↔
      (escape rules ty demand actuals).1 = .callingMethod := by
  rcases escape_cases rules ty demand actuals with hnone | ⟨k, hk, hlt, -⟩
  · simp [hnone]
  · have hne : (escape rules ty demand actuals).1 ≠ .callingMethod := by
      intro h
      rw [h] at hlt
      exact Nat.lt_irrefl _ hlt
    simp [hk, hne]

private theorem escape_culprit_limits {ty : Ty} {demand : Demand} {k : Nat}
    (h : (escape rules ty demand actuals).2 = some k) :
    Limits rules (capturesRefs rules ty demand) actuals k (escape rules ty demand actuals).1 := by
  rcases escape_cases rules ty demand actuals with hnone | ⟨k', hk', -, hlimits⟩
  · rw [hnone] at h
    cases h
  · rw [hk'] at h
    cases h
    exact hlimits

private theorem mem_flows {scope : Scope} :
    scope ∈ (actuals.filterMap (·.flows? rules captures)).flatten ↔
      ∃ a ∈ actuals, a.Flows rules captures scope := by
  simp only [List.mem_flatten, List.mem_filterMap, Actual.flows_iff]
  constructor
  · rintro ⟨scopes, ⟨a, ha, hf⟩, hs⟩
    exact ⟨a, ha, scopes, hf, hs⟩
  · rintro ⟨a, ha, scopes, hf, hs⟩
    exact ⟨scopes, ⟨a, ha, hf⟩, hs⟩

private theorem escape_eq_joinAll (ty : Ty) {demand : Demand}
    (h : ∀ a ∈ actuals, a.Reaches demand.block) (hc : ∀ a ∈ actuals, a.Canonical) :
    (escape rules ty demand actuals).1 = Scope.joinAll
      (actuals.filterMap (·.flows? rules (capturesRefs rules ty demand))).flatten := by
  refine (escape_narrowest ty h).unique ((Scope.joinAll_narrowest _).congr fun _ => mem_flows) ?_
  rintro scope ⟨a, ha, hflows⟩
  exact (hc a ha).of_eq_or hflows.eq_or

/-- Giving declared variables their scope keeps arguments within reach of the block. -/
theorem infer_reaches {scope : Scope} (hs : scope ≤ block) (h : ∀ a ∈ actuals, a.Reaches block) :
    ∀ a ∈ infer scope actuals, a.Reaches block := by
  intro a ha
  obtain ⟨b, hb, rfl⟩ := List.mem_map.mp ha
  split
  · exact ⟨hs, (h b hb).2⟩
  · exact h b hb

/-! ### Stopping early -/

/-- Stopping at a scope that is as narrow as the block loses nothing, as long as no argument is
narrower than the block. The result of the invocation has the narrowest scope that flows from the
arguments, and to blame is the first argument from which that flows, or none if there is no limit.
The variables that are declared among the arguments are recorded with the narrowest scope that any
argument brings. Where scopes are told apart by their depths, both are the joins of all the scopes
in question. -/
theorem stopping_early_loses_nothing (rules : Rules) (callee : Method) (demand : Demand)
    {actuals : List Actual} (h : ∀ a ∈ actuals, a.Reaches demand.block) :
    (∀ ty,
      let captures := capturesRefs rules ty demand
      let found := escape rules ty demand actuals
      Scope.Narrowest (fun scope => ∃ a ∈ actuals, a.Flows rules captures scope) found.1 ∧
      (found.2 = none ↔ found.1 = .callingMethod) ∧
      (∀ k, found.2 = some k → Limits rules captures actuals k found.1) ∧
      ((∀ a ∈ actuals, a.Canonical) →
        found.1 = Scope.joinAll (actuals.filterMap (·.flows? rules captures)).flatten)) ∧
    ∀ (visit : Visitor) (mood : Mood) (s : State), ∃ inferred t,
      (Rule.callSite rules callee demand actuals).run visit mood s =
        .ok (infer inferred actuals) t ∧
      Scope.Narrowest (fun scope => ∃ a ∈ actuals, ∃ viaRef, a.Brings rules viaRef scope)
        inferred ∧
      (∀ a ∈ infer inferred actuals, a.Reaches demand.block) ∧
      ((∀ a ∈ actuals, a.Canonical) →
        inferred = Scope.joinAll ((contributions rules actuals).map (·.scope))) ∧
      ∀ x : Local, Rule.firstNamed x.id (actuals.filterMap (·.outVar)) = some x →
        s.lifetimes.get? x.id = none → x.modifier ≠ .scopedValue →
        t.lifetimes.get? x.id = some ⟨demand.block, inferred⟩ := by
  constructor
  · intro ty captures found
    exact ⟨escape_narrowest ty h, escape_culprit_eq_none_iff rules ty demand actuals,
      fun k hk => escape_culprit_limits hk, escape_eq_joinAll ty h⟩
  · intro visit mood s
    obtain ⟨t, ht⟩ : ∃ t, (Rule.callSite rules callee demand actuals).run visit mood s =
        .ok (resolved rules demand.block actuals) t :=
      Rule.callSite_ends rules callee demand actuals s
    refine ⟨_, t, ht, inferredScope_narrowest rules h, infer_reaches (inferredScope_le rules h) h,
      inferredScope_eq_joinAll rules h, fun x hx hs hm => ?_⟩
    rw [Rule.callSite_get? rules callee demand ht, hs, hx, Option.none_or, Option.map_some,
      Rule.designated, if_neg hm]

/-- In a nested block, two of four arguments are as narrow as the block. The search stops at the
first of them, and that one is to blame. -/
theorem stopping_early_loses_nothing_tie :
    let p : Param := { name := "p", ty := .span .int, span := default }
    let q : Param := { name := "q", ty := .span .int, passing := .byOut, span := default }
    let g : Method :=
      { name := "g", params := [p, p, p, q], returnTy := .span .int, span := default }
    let x : Local :=
      { id := 0, name := "x", ty := .span .int, kind := .designated, span := default }
    let e : Expr := ⟨.literal, .span .int, default⟩
    let actuals : List Actual :=
      [⟨e, some p, .byValue, none, .returnOnly, none⟩, ⟨e, some p, .byValue, none, .block 1, none⟩,
        ⟨e, some p, .byValue, none, .block 1, none⟩,
        ⟨⟨.outVar x, .span .int, default⟩, some q, .byOut, some x, .callingMethod, some (.block 1)⟩]
    let demand : Demand := ⟨.block 1, .value, .returnOnly⟩
    (∀ a ∈ actuals, a.Reaches demand.block) ∧
      escape .updated (.span .int) demand actuals = (.block 1, some 1) ∧
      Limits .updated true actuals 1 (.block 1) ∧
      ∀ (visit : Visitor) (mood : Mood), ∃ bound t,
        (Rule.callSite .updated g demand actuals).run visit mood {} = .ok bound t ∧
          t.lifetimes.get? x.id = some ⟨.block 1, .block 1⟩ := by
  intro p q g x e actuals demand
  have hreaches : ∀ a ∈ actuals, a.Reaches demand.block := by
    simp only [actuals, List.forall_mem_cons, Actual.Reaches, Option.some.injEq, forall_eq']
    decide
  have hcanonical : ∀ a ∈ actuals, a.Canonical := by
    simp only [actuals, List.forall_mem_cons, Actual.Canonical, Option.some.injEq, forall_eq']
    decide
  obtain ⟨hresult, hvars⟩ := stopping_early_loses_nothing .updated g demand hreaches
  refine ⟨hreaches, rfl, (hresult (.span .int)).2.2.1 1 rfl, fun visit mood => ?_⟩
  obtain ⟨inferred, t, ht, -, -, hjoin, hrecord⟩ := hvars visit mood {}
  have hinferred : inferred = .block 1 := hjoin hcanonical
  have hx := hrecord x rfl rfl (by decide)
  rw [hinferred] at hx
  exact ⟨_, t, ht, hx⟩

end Invocation

end RefLifetime
