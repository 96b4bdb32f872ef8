import RefLifetime.Proofs.Assignment

/-!
# Assignments and what they stand for

An assignment through a choice stands for an assignment to one of the branches, and a compound
assignment for one of an operation. The assignments that they stand for are visited at other places,
from other states, and with a different number of levels to go. A choice is as narrow as its
narrower branch, so an assignment through it is not held against the wider one. A compound
assignment only reads its operands.
-/

namespace RefLifetime

/-- No scope is narrower than itself. -/
theorem Scope.narrowerThan_self (scope : Scope) : scope.narrowerThan scope = false := by
  simp [narrowerThan, lt_def]

/-- Asked for a location, every value has the same answer. -/
theorem Demand.rvalue_eq_iff (demand : Demand) {a b : Scope} :
    demand.rvalue a = demand.rvalue b ↔ (demand.mode = .value → a = b) := by
  unfold rvalue
  cases demand.mode
  · simp
  · simp

namespace Walker

variable (w : Walker)

variable {levels : Nat} {mood : Mood} {path p q : Path} {e : Expr} {demand : Demand}
  {s t u u' : State} {scope : Scope}

/-! ### The same part at another place -/

/-- A visit at another place, from a state with less on record, has the same answer and is silent
exactly if the first one is. Or it fails at a local that is not `known`, and is silent if the first
one is. -/
theorem visit_silent_elsewhere {known : Nat → Prop} (more : Nat) (hu : u.Fresh p) (hs : s.Fresh q)
    (hsub : s.lifetimes.Sub u.lifetimes) (hknown : ∀ id ∈ e.sites, known id)
    (hsame : ∀ id, known id → s.lifetimes.get? id = u.lifetimes.get? id)
    (hv : w.visit levels mood p (.expr e) demand u = .ok scope u') :
    (∃ t, w.visit (levels + more) mood q (.expr e) demand s = .ok scope t ∧
      t.lifetimes.Sub u'.lifetimes ∧ (s.Silent t ↔ u.Silent u')) ∨
    ∃ cause t, w.visit (levels + more) mood q (.expr e) demand s = .error cause t ∧
      (∃ id, ¬ known id) ∧ (u.Silent u' → s.Silent t) := by
  have hshadows : State.Shadows known p q u s := by
    refine ⟨hsub, hsame, fun route asked => ?_⟩
    rw [hu _ asked (List.prefix_append p route), hs _ asked (List.prefix_append q route)]
  have hids (id : Nat) (hid : id ∈ Node.ids w.setting levels (.expr e)) : known id :=
    hknown id (Node.ids_subset_sites w.setting levels (.expr e) hid)
  have hf := w.visit_followed levels more mood p q (.expr e) demand hids hshadows.follows
  rw [hv] at hf
  generalize w.visit (levels + more) mood q (.expr e) demand s = r at hf ⊢
  cases hf with
  | ok h =>
    obtain ⟨ds, hdu, hds⟩ := h.reports
    refine .inl ⟨_, rfl, h.sub, ?_⟩
    rw [State.silent_iff_nil hds, State.silent_iff_nil hdu]
  | behind h =>
    -- The second visit fails after it has reported a beginning of what the first one reports.
    obtain ⟨hunknown, ds, hdu, hds⟩ := h
    refine .inr ⟨_, _, rfl, hunknown, fun hsilent => (State.silent_iff_nil hds).mpr ?_⟩
    rw [hsilent] at hdu
    have hlen := hdu.length_le
    rw [List.length_append] at hlen
    exact List.eq_nil_of_length_eq_zero (by omega)

/-- With the same on record, a visit at another place does not fail where the first one does not. -/
theorem visit_agrees_elsewhere (more : Nat) (hu : u.Fresh p) (hs : s.Fresh q)
    (hsame : ∀ id, s.lifetimes.get? id = u.lifetimes.get? id)
    (hv : w.visit levels mood p (.expr e) demand u = .ok scope u') :
    ∃ t, w.visit (levels + more) mood q (.expr e) demand s = .ok scope t ∧
      (s.Silent t ↔ u.Silent u') := by
  have hsub : s.lifetimes.Sub u.lifetimes := fun id _ hl => (hsame id).symm.trans hl
  rcases w.visit_silent_elsewhere more hu hs hsub (fun _ _ => trivial) (fun id _ => hsame id)
    hv with ⟨t, hv', -, hsil⟩ | ⟨_, _, -, ⟨id, hid⟩, -⟩
  · exact ⟨t, hv', hsil⟩
  · exact absurd trivial hid

/-- A visit declares the locals inside its node, if none of them is declared before. -/
theorem declares_of_visit (hnew : ∀ id ∈ e.sites, s.lifetimes.get? id = none)
    (hv : w.visit levels mood path (.expr e) demand s = .ok scope t) : s.Declares e.sites t := by
  have hr := w.visit_recordsOnly levels mood path (.expr e) demand s
  rw [hv] at hr
  refine ⟨fun id found hf => ?_, hr⟩
  have hid : id ∉ e.sites := by
    intro hid
    rw [hnew id hid] at hf
    cases hf
  exact (hr id hid).trans hf

/-! ### Assigning through a choice -/

/-- A choice reads its condition and both branches. -/
theorem conditional_cases {c a b : Expr} {byRef : Bool} (hm : demand.mode = .value)
    (h : w.carryOut levels mood path (Rule.conditional c a b byRef demand) s = .ok scope t) :
    ∃ truth s₁ l s₂ r,
      w.visit levels mood (path ++ [Step.condition]) (.expr c) demand.forValue s = .ok truth s₁ ∧
      w.visit levels mood (path ++ [Step.left]) (.expr a) demand s₁ = .ok l s₂ ∧
      w.visit levels mood (path ++ [Step.right]) (.expr b) demand s₂ = .ok r t ∧
      scope = l.join r := by
  have hrule : Rule.conditional c a b byRef demand = (do
      let _ ← Plan.evaluate [.condition] c demand.forValue
      let l ← Plan.evaluate [.left] a demand
      let r ← Plan.evaluate [.right] b demand
      return l.join r) := by
    unfold Rule.conditional
    simp only [Demand.isRef, hm]
    rfl
  rw [hrule, carryOut_evaluate, Ending.andThen_eq_ok] at h
  obtain ⟨truth, s₁, hc, h⟩ := h
  rw [carryOut_evaluate, Ending.andThen_eq_ok] at h
  obtain ⟨l, s₂, hl, h⟩ := h
  rw [carryOut_evaluate, Ending.andThen_eq_ok] at h
  obtain ⟨r, s₃, hr, h⟩ := h
  cases h
  exact ⟨truth, s₁, l, s₂, r, hc, hl, hr, rfl⟩

/-- On the way from `s` to `v` the expression `x` was read without a complaint and with the answer
`own`. What is declared in `e` is on record in `v` as it is in `s`. -/
inductive HasRead (w : Walker) (levels : Nat) (mood : Mood) (demand : Demand) (x e : Expr)
    (own : Scope) (s v : State) : Prop
  | intro {p : Path} {u u' : State} {before : List Nat} (fresh : u.Fresh p)
      (read : w.visit levels mood p (.expr x) demand.forValue u = .ok own u') (silent : u.Silent u')
      (declares : s.Declares before u) (apart : ∀ id ∈ x.sites, id ∉ before)
      (kept : u'.lifetimes.Sub v.lifetimes)
      (record : ∀ id ∈ e.sites, v.lifetimes.get? id = s.lifetimes.get? id ∧ id ∉ x.sites)

/-- An assignment to what was read before is silent if the right side was, and if it is silent and
does not fail, then the right side was. -/
theorem HasRead.stays_silent {x : Expr} {own value : Scope} {v v' : State}
    (h : w.HasRead levels mood demand x e own s v) (hs : s.Fresh q) (hf : v.Fresh p)
    (he : w.visit (levels + 1) mood p (.expr e) (demand.requiring .value own) v = .ok value v')
    (ty : Ty) (span : Span) :
    let r := w.visit (levels + 2) mood q (.expr ⟨.assignment x e false, ty, span⟩) demand s
    (v.Silent v' → s.Silent (Ending.state r)) ∧
      ∀ scope t, r = .ok scope t → s.Silent t → v.Silent v' := by
  obtain ⟨fresh, read, silent, declares, apart, kept, record⟩ := h
  intro r
  let run := w.carryOut (levels + 1) mood q (Rule.valueAssignment x e demand) s
  have hr : (Ending.state r).journal.diagnostics = (Ending.state run).journal.diagnostics :=
    w.visit_diagnostics (levels + 1) mood ⟨.assignment x e false, ty, span⟩ demand hs
  have hrun : run = _ := w.carryOut_valueAssignment x e demand s
  -- An assignment that fails is silent as far as it comes.
  have hfailed {cause : Failure} {t : State} (hrun : run = .error cause t)
      (ht : v.Silent v' → s.Silent t) : (v.Silent v' → s.Silent (Ending.state r)) ∧
        ∀ scope t, r = .ok scope t → s.Silent t → v.Silent v' := by
    constructor
    · intro h
      rw [hrun] at hr
      exact hr.trans (ht h)
    · intro scope t hok
      obtain ⟨_, hrun', -⟩ := w.carryOut_of_visit hs hok
      cases hrun.symm.trans hrun'
  rcases w.visit_silent_elsewhere 1 fresh (hs.part [.left]) declares.sub (fun _ hid => hid)
    (fun id hid => (declares.others id (apart id hid)).symm) read with
    ⟨t₁, hv₁, hsub₁, hsil₁⟩ | ⟨cause, t₁, hv₁, -, hsil₁⟩
  · have ht₁ := w.visit_recordsOnly (levels + 1) mood (q ++ [Step.left]) (.expr x) demand.forValue s
    rw [hv₁] at ht₁ hrun
    have hsame (id : Nat) (hid : id ∈ e.sites) : t₁.lifetimes.get? id = v.lifetimes.get? id :=
      (ht₁ id (record id hid).2).trans (record id hid).1.symm
    have hf₁ : t₁.Fresh (q ++ [Step.right]) := w.fresh_sibling (by decide) (hs.part _) hv₁
    have hleft : s.Silent t₁ := hsil₁.mpr silent
    change run = Ending.andThen (w.visit (levels + 1) mood (q ++ [Step.right]) _ _ t₁) _ at hrun
    rcases w.visit_silent_elsewhere 0 hf hf₁ (hsub₁.trans kept) (fun _ hid => hid) hsame he with
      ⟨t₂, hv₂, -, hsil₂⟩ | ⟨cause, t₂, hv₂, -, hsil₂⟩
    · have hend : run = .ok (demand.rvalue value) t₂ := by
        rw [hrun, hv₂]
        rfl
      rw [hend] at hr
      constructor
      · intro h
        exact hr.trans ((hsil₂.mpr h).trans hleft)
      · rintro scope t hok hst
        rw [hok] at hr
        exact hsil₂.mp ((hr.symm.trans hst).trans hleft.symm)
    · apply hfailed
      · rw [hrun, hv₂]
        rfl
      · exact fun h => (hsil₂ h).trans hleft
  · apply hfailed
    · rw [hrun, hv₁]
      rfl
    · exact fun _ => hsil₁ silent

/-- What an assignment to a branch comes to when the right side was read without a complaint against
`held`: it is silent if the branch is no wider than that, or if the value reaches the branch. -/
theorem HasRead.assigned (hq : mood.quiet = false) {x : Expr} {own held value : Scope}
    {v v' : State} (h : w.HasRead levels mood demand x e own s v) (hs : s.Fresh q) (hf : v.Fresh p)
    (he : w.visit (levels + 1) mood p (.expr e) (demand.requiring .value held) v = .ok value v')
    (hsilent : v.Silent v') (ty : Ty) (span : Span) :
    let r := w.visit (levels + 2) mood q (.expr ⟨.assignment x e false, ty, span⟩) demand s
    (held ≤ own → s.Silent (Ending.state r)) ∧
      (e.Accountable w.setting.rules .value →
        (value.narrowerThan own = false → s.Silent (Ending.state r)) ∧
        (value.narrowerThan own = true → ∀ scope t, r = .ok scope t → ¬ s.Silent t)) := by
  intro r
  obtain ⟨u, hown⟩ := w.visit_retargeted hf he own
  obtain ⟨hto, hof⟩ := h.stays_silent w hs hf hown ty span
  refine ⟨fun hle => hto (w.silent_of_le hle hf he hown hsilent), fun hacc => ?_⟩
  have hiff := w.silent_iff_of_silent hq hacc hf he hsilent hown
  constructor
  · intro hn
    exact hto (hiff.mpr hn)
  · intro hn scope t hok hst
    have hn' := hiff.mp (hof scope t hok hst)
    rw [hn] at hn'
    cases hn'

/-- After some declarations, what differs from them is still undeclared. -/
theorem undeclared_after {ids ids' : List Nat} (h : s.Declares ids t) (hapart : ids.Disjoint ids')
    (hnew : ∀ id ∈ ids', s.lifetimes.get? id = none) : ∀ id ∈ ids', t.lifetimes.get? id = none := by
  intro id hid
  rw [h.others id fun hm => hapart hm hid]
  exact hnew id hid

/-- A choice that is read without a complaint has read both branches without one. -/
theorem choice_hasRead {c a b : Expr} {byRef : Bool} {ty : Ty} {span : Span} {held : Scope}
    {v : State} (hs : s.Fresh p)
    (hapart : [c.sites, a.sites, b.sites, e.sites].Pairwise List.Disjoint)
    (hnew : ∀ id ∈ c.sites ++ a.sites ++ b.sites, s.lifetimes.get? id = none)
    (hv : w.visit (levels + 1) mood p (.expr ⟨.conditional c a b byRef, ty, span⟩)
      demand.forValue s = .ok held v)
    (hsilent : s.Silent v) :
    ∃ truth s₁ first s₂ second s₃,
      w.visit levels mood (p ++ [Step.condition]) (.expr c) demand.forValue s = .ok truth s₁ ∧
      w.visit levels mood (p ++ [Step.left]) (.expr a) demand.forValue s₁ = .ok first s₂ ∧
      w.visit levels mood (p ++ [Step.right]) (.expr b) demand.forValue s₂ = .ok second s₃ ∧
      held = first.join second ∧ w.HasRead levels mood demand a e first s v ∧
      w.HasRead levels mood demand b e second s v := by
  obtain ⟨s₃, hrun, hlife, hd⟩ := w.carryOut_of_visit hs hv
  obtain ⟨truth, s₁, first, s₂, second, hc, ha, hb, rfl⟩ := w.conditional_cases rfl hrun
  simp only [List.pairwise_cons, List.mem_cons, List.not_mem_nil, or_false, forall_eq_or_imp,
    forall_eq] at hapart
  obtain ⟨⟨hca, hcb, hce⟩, ⟨hab, hae⟩, hbe, -⟩ := hapart
  simp only [List.forall_mem_append] at hnew
  -- Each part declares what the state before it does not have.
  have hd₁ := w.declares_of_visit hnew.1.1 hc
  have hd₂ := w.declares_of_visit (undeclared_after hd₁ hca hnew.1.2) ha
  have hcab : (c.sites ++ a.sites).Disjoint b.sites := List.disjoint_append_left.mpr ⟨hcb, hab⟩
  have hd₃ := w.declares_of_visit (undeclared_after (hd₁.trans hd₂) hcab hnew.2) hb
  have hcabe : (c.sites ++ a.sites ++ b.sites).Disjoint e.sites :=
    List.disjoint_append_left.mpr ⟨List.disjoint_append_left.mpr ⟨hce, hae⟩, hbe⟩
  have hrecord (id : Nat) (hid : id ∈ e.sites) : v.lifetimes.get? id = s.lifetimes.get? id := by
    rw [hlife]
    exact ((hd₁.trans hd₂).trans hd₃).others id fun hm => hcabe hm hid
  have hg₁ := w.grows_of_visit hc
  have hg₂ := State.persistent_grows.trans hg₁ (w.grows_of_visit ha)
  obtain ⟨hsil₂, hsil₃⟩ :=
    (hg₂.silent_iff (w.grows_of_visit hb)).mp (hd.symm.trans hsilent)
  obtain ⟨-, hsil₂⟩ := (hg₁.silent_iff (w.grows_of_visit ha)).mp hsil₂
  have hfa : s₁.Fresh (p ++ [Step.left]) := w.fresh_sibling (by decide) (hs.part _) hc
  have hfb : s₂.Fresh (p ++ [Step.right]) :=
    w.fresh_sibling (by decide) (w.fresh_sibling (by decide) (hs.part _) hc) ha
  refine ⟨truth, s₁, first, s₂, second, s₃, hc, ha, hb, rfl, ?_, ?_⟩
  · refine .intro hfa ha hsil₂ hd₁ (fun id hid hm => hca hm hid) ?_ fun id hid => ?_
    · rw [hlife]
      exact hd₃.sub
    · exact ⟨hrecord id hid, fun hm => hae hm hid⟩
  · refine .intro hfb hb hsil₃ (hd₁.trans hd₂) (fun id hid hm => hcab hm hid) ?_ fun id hid => ?_
    · rw [hlife]
      exact fun _ _ h => h
    · exact ⟨hrecord id hid, fun hm => hbe hm hid⟩

/-- An assignment through a choice without a complaint spares the narrower branch. Assigning the
same to that branch alone has no complaint either. Assigning it to the other one has none exactly if
the value reaches that far, where the right side answers for its target. -/
theorem choiceAssignment_spares_narrower (levels : Nat) {mood : Mood} (hq : mood.quiet = false)
    {path q : Path} (c a b e : Expr) (choiceTy : Ty) (choiceSpan : Span) (ty : Ty) (span : Span)
    (demand : Demand) {s s' : State} {scope : Scope} (hs : s.Fresh path) (hs' : s.Fresh q)
    (hapart : [c.sites, a.sites, b.sites, e.sites].Pairwise List.Disjoint)
    (hnew : ∀ id ∈ c.sites ++ a.sites ++ b.sites, s.lifetimes.get? id = none)
    (hv : w.visit (levels + 2) mood path
      (.expr ⟨.assignment ⟨.conditional c a b true, choiceTy, choiceSpan⟩ e false, ty, span⟩)
      demand s = .ok scope s')
    (hsilent : s.Silent s') :
    ∃ (truth first second value : Scope) (s₁ s₂ s₃ s₄ s₅ : State),
      w.visit levels mood (path ++ [Step.left] ++ [Step.condition]) (.expr c) demand.forValue s =
        .ok truth s₁ ∧
      w.visit levels mood (path ++ [Step.left] ++ [Step.left]) (.expr a) demand.forValue s₁ =
        .ok first s₂ ∧
      w.visit levels mood (path ++ [Step.left] ++ [Step.right]) (.expr b) demand.forValue s₂ =
        .ok second s₃ ∧
      w.visit (levels + 1) mood (path ++ [Step.left])
        (.expr ⟨.conditional c a b true, choiceTy, choiceSpan⟩) demand.forValue s =
        .ok (first.join second) s₄ ∧
      w.visit (levels + 1) mood (path ++ [Step.right]) (.expr e)
        (demand.requiring .value (first.join second)) s₄ = .ok value s₅ ∧
      ∀ (x : Expr) (own other : Scope), (x, own, other) ∈ [(a, first, second), (b, second, first)] →
        let r := w.visit (levels + 2) mood q (.expr ⟨.assignment x e false, ty, span⟩) demand s
        (other ≤ own → s.Silent (Ending.state r)) ∧
          (e.Accountable w.setting.rules .value →
            (value.narrowerThan own = false → s.Silent (Ending.state r)) ∧
            (value.narrowerThan own = true → ∀ scope t, r = .ok scope t → ¬ s.Silent t)) := by
  obtain ⟨s₅, hrun, -, hd⟩ := w.carryOut_of_visit hs hv
  obtain ⟨held, s₄, value, hl, he, rfl⟩ := w.valueAssignment_cases hrun
  obtain ⟨hsl, hse⟩ :=
    ((w.grows_of_visit hl).silent_iff (w.grows_of_visit he)).mp (hd.symm.trans hsilent)
  obtain ⟨truth, s₁, first, s₂, second, s₃, hc, ha, hb, rfl, hreadA, hreadB⟩ :=
    w.choice_hasRead (hs.part _) hapart hnew hl hsl
  have hf : s₄.Fresh (path ++ [Step.right]) := w.fresh_sibling (by decide) (hs.part _) hl
  refine ⟨truth, first, second, value, s₁, s₂, s₃, s₄, s₅, hc, ha, hb, hl, he, ?_⟩
  intro x own other hx r
  -- A branch that is no wider than the other one is as narrow as the choice.
  have hassigned : w.HasRead levels mood demand x e own s s₄ ∧
      (other ≤ own → first.join second ≤ own) := by
    simp only [List.mem_cons, List.not_mem_nil, or_false, Prod.mk.injEq] at hx
    simp only [Scope.le_def, Scope.depth_join]
    rcases hx with ⟨rfl, rfl, rfl⟩ | ⟨rfl, rfl, rfl⟩
    · exact ⟨hreadA, by omega⟩
    · exact ⟨hreadB, by omega⟩
  obtain ⟨hle, hacc⟩ := hassigned.1.assigned w hq hs' hf he hse ty span
  exact ⟨fun h => hle (hassigned.2 h), hacc⟩

/-- Through a choice between a local that may be carried to the caller and one that stays in the
method, memory on the stack is stored without a complaint. Storing it in the second one has no
complaint either, storing it in the first one has. -/
theorem choiceAssignment_spares_narrower_stack :
    let w : Walker := ⟨⟨.updated, { name := "f", returnTy := .void, span := default }⟩, 8, true⟩
    let x : Local := { id := 0, name := "x", ty := .span .int, span := default }
    let y : Local := { id := 1, name := "y", ty := .span .int, span := default }
    let c : Expr := ⟨.literal, .bool, default⟩
    let a : Expr := ⟨.localVar x, .span .int, default⟩
    let b : Expr := ⟨.localVar y, .span .int, default⟩
    let e : Expr := ⟨.stackAlloc c [], .span .int, default⟩
    let choice : Expr := ⟨.conditional c a b true, .span .int, default⟩
    let demand : Demand := ⟨.currentMethod, .value, .currentMethod⟩
    let s : State :=
      { lifetimes := (Lifetimes.empty.insert 0 ⟨.currentMethod, .callingMethod⟩).insert 1
          ⟨.currentMethod, .currentMethod⟩ }
    s.Fresh [] ∧ (∃ scope s', w.visit 8 {} []
      (.expr ⟨.assignment choice e false, .span .int, default⟩) demand s = .ok scope s' ∧
        s.Silent s') ∧
      s.Silent (Ending.state (w.visit 8 {} []
        (.expr ⟨.assignment b e false, .span .int, default⟩) demand s)) ∧
      ∃ scope t, w.visit 8 {} [] (.expr ⟨.assignment a e false, .span .int, default⟩) demand s =
        .ok scope t ∧ ¬ s.Silent t := by
  intro w x y c a b e choice demand s
  have hs : s.Fresh [] := fun _ _ _ => rfl
  have he : e.Accountable w.setting.rules .value := .intro rfl (by simp [Expr.resultParts, e])
  have hv : w.visit 8 {} [] (.expr ⟨.assignment choice e false, .span .int, default⟩) demand s =
      .ok .currentMethod (Ending.state (w.visit 8 {} []
        (.expr ⟨.assignment choice e false, .span .int, default⟩) demand s)) := rfl
  obtain ⟨_, _, _, _, _, _, _, _, _, hc, ha, hb, hl, hvalue, hbranches⟩ :=
    w.choiceAssignment_spares_narrower 6 (rfl : ({} : Mood).quiet = false) c a b e _ _ _ _ demand hs
      hs (by simp [c, a, b, e, Expr.sites, Form.sites, Expr.listSites])
      (by simp [c, a, b, Expr.sites, Form.sites]) hv rfl
  cases hc
  cases ha
  cases hb
  cases hl
  cases hvalue
  refine ⟨hs, ⟨_, _, hv, rfl⟩, ?_, ⟨_, _, rfl, ?_⟩⟩
  · exact (hbranches b .currentMethod .callingMethod (by simp)).1 (by decide)
  · exact ((hbranches a .callingMethod .currentMethod (by simp)).2 he).2 rfl _ _ rfl

/-- Through a choice, memory on the stack is stored without a complaint in a local that may be
carried to the caller, where storing it directly is reported. -/
theorem choiceAssignment_misses_wider :
    let w : Walker := ⟨⟨.updated, { name := "f", returnTy := .void, span := default }⟩, 8, true⟩
    let x : Local := { id := 0, name := "wide", ty := .span .int, span := default }
    let y : Local := { id := 1, name := "narrow", ty := .span .int, span := default }
    let c : Expr := ⟨.literal, .bool, default⟩
    let a : Expr := ⟨.localVar x, .span .int, default⟩
    let b : Expr := ⟨.localVar y, .span .int, default⟩
    let e : Expr := ⟨.stackAlloc c [], .span .int, default⟩
    let choice : Expr := ⟨.conditional c a b true, .span .int, default⟩
    let demand : Demand := ⟨.currentMethod, .value, .currentMethod⟩
    let s : State :=
      { lifetimes := (Lifetimes.empty.insert 0 ⟨.currentMethod, .callingMethod⟩).insert 1
          ⟨.currentMethod, .currentMethod⟩ }
    s.Fresh [] ∧ ∃ scope s' scope' t,
      w.visit 8 {} [] (.expr ⟨.assignment choice e false, .span .int, default⟩) demand s =
        .ok scope s' ∧
      s'.journal.diagnostics = s.journal.diagnostics ∧
      w.visit 8 {} [] (.expr ⟨.assignment a e false, .span .int, default⟩) demand s =
        .ok scope' t ∧
      t.journal.diagnostics.size = s.journal.diagnostics.size + 1 :=
  ⟨fun _ _ _ => rfl, _, _, _, _, rfl, rfl, rfl, rfl⟩

/-! ### Compound assignments -/

/-- An operation of a ref-like type holds both operands against its own target. -/
theorem binary_cases {left right : Expr} {ty : Ty} (hty : ty.isRefLike = true) {span : Span}
    (hm : demand.mode = .value) (hs : s.Fresh path)
    (hv : w.visit (levels + 1) mood path (.expr ⟨.binary left right, ty, span⟩) demand s =
      .ok scope t) :
    ∃ l s₁ r s₂,
      w.visit levels mood (path ++ [Step.left]) (.expr left) demand s = .ok l s₁ ∧
      w.visit levels mood (path ++ [Step.right]) (.expr right) demand s₁ = .ok r s₂ ∧
      scope = l.join r ∧ (s.Silent t ↔ s.Silent s₁ ∧ s₁.Silent s₂) := by
  obtain ⟨s₂, h, -, hd⟩ := w.carryOut_of_visit hs hv
  have hrule : Rule.expr w.setting ⟨.binary left right, ty, span⟩ demand =
      Rule.joined left right demand := if_pos hty
  have hoperand : demand.forOperand = demand := by simp [Demand.forOperand, Demand.isRef, hm]
  unfold Rule.joined at hrule
  rw [hrule, hoperand, carryOut_evaluate, Ending.andThen_eq_ok] at h
  obtain ⟨l, s₁, hl, h⟩ := h
  rw [carryOut_evaluate, Ending.andThen_eq_ok] at h
  obtain ⟨r, _, hr, h⟩ := h
  cases h
  refine ⟨l, s₁, r, s₂, hl, hr, ?_, ?_⟩
  · simp [Demand.rvalue, hm]
  · rw [State.silent_congr hd, (w.grows_of_visit hl).silent_iff (w.grows_of_visit hr)]

/-- Two operands that are only read. -/
theorem carryOut_readBoth (left right : Expr) (demand : Demand) (s : State) :
    w.carryOut levels mood path (Rule.readBoth left right demand) s =
      Ending.andThen (w.visit levels mood (path ++ [Step.left]) (.expr left) demand.forValue s)
        fun _ s₁ => Ending.andThen
          (w.visit levels mood (path ++ [Step.right]) (.expr right) demand.forValue s₁)
          fun _ s₂ => .ok (demand.rvalue .callingMethod) s₂ := by
  have hrule : Rule.readBoth left right demand = (do
      let _ ← Plan.evaluate [.left] left demand.forValue
      let _ ← Plan.evaluate [.right] right demand.forValue
      return demand.rvalue .callingMethod) := rfl
  rw [hrule, carryOut_evaluate]
  congr
  funext _ s₁
  rw [carryOut_evaluate]
  rfl

/-- Whatever its operands are, a compound assignment may be carried anywhere. -/
theorem compound_answers {left right : Expr} {ty : Ty} {span : Span} (hs : s.Fresh path)
    (hv : w.visit (levels + 1) mood path (.expr ⟨.compoundAssignment left right, ty, span⟩) demand
      s = .ok scope t) : scope = demand.rvalue .callingMethod := by
  obtain ⟨_, hrun, -⟩ := w.carryOut_of_visit hs hv
  have h := (w.carryOut_readBoth left right demand s).symm.trans hrun
  rw [Ending.andThen_eq_ok] at h
  obtain ⟨_, _, -, h⟩ := h
  rw [Ending.andThen_eq_ok] at h
  obtain ⟨_, _, -, h⟩ := h
  cases h
  rfl

/-- A compound assignment whose operands can be read is silent if they are. -/
theorem compound_reads {left right : Expr} (ty : Ty) (span : Span) {l r : Scope} {s₁ s₂ : State}
    (hs : s.Fresh path)
    (hl : w.visit levels mood (path ++ [Step.left]) (.expr left) demand.forValue s = .ok l s₁)
    (hr : w.visit levels mood (path ++ [Step.right]) (.expr right) demand.forValue s₁ = .ok r s₂) :
    ∃ u, w.visit (levels + 1) mood path (.expr ⟨.compoundAssignment left right, ty, span⟩) demand
        s = .ok (demand.rvalue .callingMethod) u ∧
      (s.Silent u ↔ s.Silent s₁ ∧ s₁.Silent s₂) := by
  have hrun : w.carryOut levels mood path
      (Rule.expr w.setting ⟨.compoundAssignment left right, ty, span⟩ demand) s =
      .ok (demand.rvalue .callingMethod) s₂ := by
    apply (w.carryOut_readBoth left right demand s).trans
    rw [hl]
    change Ending.andThen (w.visit levels mood (path ++ [Step.right]) _ _ s₁) _ = _
    rw [hr]
    rfl
  obtain ⟨u, hu, -, hd⟩ := w.visit_of_carryOut hs hrun
  refine ⟨u, hu, ?_⟩
  rw [State.silent_congr hd, (w.grows_of_visit hl).silent_iff (w.grows_of_visit hr)]

/-- A visit of what declares nothing records nothing. -/
theorem same_of_visit (he : e.sites = [])
    (hv : w.visit levels mood path (.expr e) demand s = .ok scope t) (id : Nat) :
    t.lifetimes.get? id = s.lifetimes.get? id := by
  have hr := w.visit_recordsOnly levels mood path (.expr e) demand s
  rw [hv] at hr
  exact hr id (by simp [Node.sites, he])

/-- The left side is read a second time, as the first operand. It has the same answer, and meets it
as a target. -/
theorem operand_reads_again (hq : mood.quiet = false) {left : Expr} {held again : Scope}
    {s₁ s₂ : State} (hleft : left.sites = []) (hs : s.Fresh path)
    (hl : w.visit (levels + 1) mood (path ++ [Step.left]) (.expr left) demand.forValue s =
      .ok held s₁)
    (ho : w.visit levels mood (path ++ [Step.right] ++ [Step.left]) (.expr left)
      (demand.requiring .value held) s₁ = .ok again s₂) :
    again = held ∧ (left.Accountable w.setting.rules .value → s.Silent s₁ →
      held.narrowerThan demand.block = false ∧ s₁.Silent s₂) := by
  have hf : s₁.Fresh (path ++ [Step.right] ++ [Step.left]) :=
    (w.fresh_sibling (by decide) (hs.part _) hl).part _
  have hsame (id : Nat) : s.lifetimes.get? id = s₁.lifetimes.get? id :=
    (w.same_of_visit hleft hl id).symm
  obtain ⟨t, hv, hsil⟩ := w.visit_agrees_elsewhere 1 hf (hs.part _) hsame ho
  -- At the first place the target was the block, but a target does not change the answer.
  obtain ⟨t', hv'⟩ := w.visit_retargeted (hs.part _) hl held
  cases hv.symm.trans hv'
  refine ⟨rfl, fun hacc hquiet => ⟨?_, ?_⟩⟩
  · exact (w.silent_iff_of_silent hq hacc (hs.part _) hl hquiet hl).mp hquiet
  · apply hsil.mp
    rw [w.silent_iff_of_silent hq hacc (hs.part _) hl hquiet hv]
    exact Scope.narrowerThan_self held

/-- The right side is read as the second operand, against what holds the value. Read on its own, it
has the same answer and is only held against the block. -/
theorem operand_reads_alone (hq : mood.quiet = false) {right : Expr} {held value : Scope}
    {u₁ u₂ : State} (hs : s.Fresh path) (hu : u₁.Fresh (path ++ [Step.right]))
    (hsame : ∀ id, s.lifetimes.get? id = u₁.lifetimes.get? id)
    (hr : w.visit levels mood (path ++ [Step.right]) (.expr right)
      (demand.requiring .value held) u₁ = .ok value u₂) :
    ∃ t, w.visit (levels + 1) mood path (.expr right) demand.forValue s = .ok value t ∧
      (right.Accountable w.setting.rules .value → held.narrowerThan demand.block = false →
        (u₁.Silent u₂ ↔ s.Silent t ∧ value.narrowerThan held = false)) := by
  obtain ⟨u₃, hb⟩ := w.visit_retargeted hu hr demand.block
  obtain ⟨u₄, hfree⟩ := w.visit_retargeted hu hr .unused
  obtain ⟨t, hv, hsil⟩ := w.visit_agrees_elsewhere 1 hu hs hsame hb
  refine ⟨t, hv, fun hacc hblock => ?_⟩
  rw [hsil, w.silent_iff_of_accountable hq hacc hu hr hfree,
    w.silent_iff_of_accountable hq hacc hu hb hfree]
  have hreach : value.narrowerThan held = false → value.narrowerThan demand.block = false := by
    simp only [Scope.narrowerThan, Scope.lt_def, decide_eq_false_iff_not] at hblock ⊢
    omega
  constructor
  · rintro ⟨hquiet, hn⟩
    exact ⟨⟨hquiet, hreach hn⟩, hn⟩
  · rintro ⟨⟨hquiet, -⟩, hn⟩
    exact ⟨hquiet, hn⟩

/-- A compound assignment of a ref-like type is not what it stands for. Whatever is assigned, it may
be carried anywhere, so its answer is that of the expansion only where the value may be, or where a
location is asked for. It complains about its operands but not about a value that is narrower than
what holds it: if the left side declares nothing and both sides answer for their targets, then the
expansion has no complaint exactly if the compound assignment has none and the value reaches as far
as the holder. -/
theorem compoundAssignment_versus_expansion (levels : Nat) {mood : Mood} (hq : mood.quiet = false)
    {path : Path} (left right : Expr) {ty : Ty} (hty : ty.isRefLike = true) (span opSpan : Span)
    (demand : Demand) {s t : State} {scope : Scope} (hs : s.Fresh path)
    (hv : w.visit (levels + 2) mood path
      (.expr ⟨.assignment left ⟨.binary left right, ty, opSpan⟩ false, ty, span⟩) demand s =
      .ok scope t) :
    let compound :=
      w.visit (levels + 2) mood path (.expr ⟨.compoundAssignment left right, ty, span⟩) demand s
    ∃ held s₁ value t₁,
      w.visit (levels + 1) mood (path ++ [Step.left]) (.expr left) demand.forValue s = .ok held s₁ ∧
      w.visit (levels + 1) mood (path ++ [Step.right]) (.expr ⟨.binary left right, ty, opSpan⟩)
        (demand.requiring .value held) s₁ = .ok value t₁ ∧
      (∀ other u, compound = .ok other u → other = demand.rvalue .callingMethod ∧
        (other = scope ↔ (demand.mode = .value → value = .callingMethod))) ∧
      (left.sites = [] → ∃ u, compound = .ok (demand.rvalue .callingMethod) u ∧
        (left.Accountable w.setting.rules .value → right.Accountable w.setting.rules .value →
          (s.Silent t ↔ s.Silent u ∧ value.narrowerThan held = false))) := by
  intro compound
  obtain ⟨t₁, hrun, -, hd⟩ := w.carryOut_of_visit hs hv
  obtain ⟨held, s₁, value, hl, hb, rfl⟩ := w.valueAssignment_cases hrun
  have hst : s.Silent t ↔ s.Silent s₁ ∧ s₁.Silent t₁ := by
    rw [State.silent_congr hd, (w.grows_of_visit hl).silent_iff (w.grows_of_visit hb)]
  refine ⟨held, s₁, value, t₁, hl, hb, fun other u hother => ?_, fun hleft => ?_⟩
  · obtain rfl := w.compound_answers hs hother
    refine ⟨rfl, ?_⟩
    rw [demand.rvalue_eq_iff, eq_comm (a := Scope.callingMethod)]
  · have hf : s₁.Fresh (path ++ [Step.right]) := w.fresh_sibling (by decide) (hs.part _) hl
    obtain ⟨_, s₂, r, s₃, ho, hr, rfl, hbs⟩ := w.binary_cases hty rfl hf hb
    obtain ⟨rfl, hfirst⟩ := w.operand_reads_again hq hleft hs hl ho
    have hf₂ : s₂.Fresh (path ++ [Step.right] ++ [Step.right]) :=
      w.fresh_sibling (by decide) (hf.part _) ho
    obtain ⟨u₂, hu₂, hsecond⟩ := w.operand_reads_alone hq hf hf₂
      (fun id => (w.same_of_visit hleft ho id).symm) hr
    obtain ⟨u, hu, hsu⟩ := w.compound_reads ty span hs hl hu₂
    refine ⟨u, hu, fun haccl haccr => ?_⟩
    rw [hst, hbs, hsu, Scope.join_narrowerThan, Scope.narrowerThan_self, Bool.false_or]
    constructor
    · rintro ⟨h₁, -, h₃⟩
      obtain ⟨hblock, -⟩ := hfirst haccl h₁
      obtain ⟨halone, hreach⟩ := (hsecond haccr hblock).mp h₃
      exact ⟨⟨h₁, halone⟩, hreach⟩
    · rintro ⟨⟨h₁, halone⟩, hreach⟩
      obtain ⟨hblock, hagain⟩ := hfirst haccl h₁
      exact ⟨h₁, hagain, (hsecond haccr hblock).mpr ⟨halone, hreach⟩⟩

/-- What is added to a local that stays in the method may be carried to the caller. The assignment
that is written out has no complaint, so the compound one has none, but the value of the compound
one may be carried to the caller and that of the other may not. -/
theorem compoundAssignment_versus_expansion_wider :
    let w : Walker := ⟨⟨.updated, { name := "f", returnTy := .void, span := default }⟩, 8, true⟩
    let x : Local := { id := 0, name := "x", ty := .span .int, span := default }
    let y : Local := { id := 1, name := "y", ty := .span .int, span := default }
    let left : Expr := ⟨.localVar x, .span .int, default⟩
    let right : Expr := ⟨.localVar y, .span .int, default⟩
    let expansion : Expr :=
      ⟨.assignment left ⟨.binary left right, .span .int, default⟩ false, .span .int, default⟩
    let demand : Demand := ⟨.currentMethod, .value, .currentMethod⟩
    let s : State :=
      { lifetimes := (Lifetimes.empty.insert 0 ⟨.currentMethod, .currentMethod⟩).insert 1
          ⟨.currentMethod, .callingMethod⟩ }
    (Ty.span .int).isRefLike = true ∧ s.Fresh [] ∧ ∃ t other u,
      w.visit 8 {} [] (.expr expansion) demand s = .ok .currentMethod t ∧
      w.visit 8 {} [] (.expr ⟨.compoundAssignment left right, .span .int, default⟩) demand s =
        .ok other u ∧
      s.Silent t ∧ s.Silent u ∧ other ≠ .currentMethod := by
  intro w x y left right expansion demand s
  have hs : s.Fresh [] := fun _ _ _ => rfl
  have hleft : left.Accountable w.setting.rules .value :=
    .intro rfl (by simp [Expr.resultParts, left])
  have hright : right.Accountable w.setting.rules .value :=
    .intro rfl (by simp [Expr.resultParts, right])
  have hv : w.visit 8 {} [] (.expr expansion) demand s =
      .ok .currentMethod (Ending.state (w.visit 8 {} [] (.expr expansion) demand s)) := rfl
  obtain ⟨held, s₁, value, t₁, hheld, hvalue, hanswer, hsilent⟩ :=
    w.compoundAssignment_versus_expansion 6 (rfl : ({} : Mood).quiet = false) left right
      (rfl : (Ty.span .int).isRefLike = true) _ _ demand hs hv
  obtain ⟨u, hu, hiff⟩ := hsilent rfl
  cases hheld
  cases hvalue
  refine ⟨rfl, hs, _, _, u, hv, hu, rfl, ((hiff hleft hright).mp rfl).1, ?_⟩
  intro heq
  have hwide := (hanswer _ u hu).2.mp heq rfl
  cases hwide

/-- A compound assignment stores a value that stays in the method in a local that may be carried to
the caller, and nothing is reported. Written out, the same assignment is reported, and its value may
not be carried to the caller. -/
theorem compoundAssignment_misses_narrowing :
    let w : Walker := ⟨⟨.updated, { name := "f", returnTy := .void, span := default }⟩, 8, true⟩
    let x : Local := { id := 0, name := "l", ty := .span .int, span := default }
    let y : Local := { id := 1, name := "r", ty := .span .int, span := default }
    let left : Expr := ⟨.localVar x, .span .int, default⟩
    let right : Expr := ⟨.localVar y, .span .int, default⟩
    let expansion : Expr :=
      ⟨.assignment left ⟨.binary left right, .span .int, default⟩ false, .span .int, default⟩
    let demand : Demand := ⟨.currentMethod, .value, .currentMethod⟩
    let s : State :=
      { lifetimes := (Lifetimes.empty.insert 0 ⟨.currentMethod, .callingMethod⟩).insert 1
          ⟨.currentMethod, .currentMethod⟩ }
    s.Fresh [] ∧ ∃ t u,
      w.visit 8 {} [] (.expr expansion) demand s = .ok .currentMethod t ∧
      t.journal.diagnostics.size = s.journal.diagnostics.size + 1 ∧
      w.visit 8 {} [] (.expr ⟨.compoundAssignment left right, .span .int, default⟩) demand s =
        .ok .callingMethod u ∧
      u.journal.diagnostics = s.journal.diagnostics :=
  ⟨fun _ _ _ => rfl, _, _, rfl, rfl, rfl, rfl⟩

end Walker

end RefLifetime
