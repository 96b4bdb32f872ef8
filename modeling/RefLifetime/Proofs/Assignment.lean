import RefLifetime.Proofs.Elsewhere
import RefLifetime.Proofs.Silence

/-!
# What assignments are checked for

An assignment holds its right side against its left side. As an expression it may stand where more
is required of its value, and that is not checked. A reference to a ref struct is pointed to another
one if that reaches as far, as a location and as a value. It may reach further, and what is stored
through the reference later on is then held against the scope that the reference had.
-/

namespace RefLifetime

/-! ### How assignments run -/

namespace Rule

/-- The checks that a reference is put through when it is pointed to another location. -/
def repointing (left right : Expr) (demand : Demand) (target referent : Scope) : Plan Unit :=
  if referent.narrowerThan target then
    .report ⟨.ofRefAssign referent, right.span, [left.name, right.name]⟩ (return ())
  else if left.ty.isRefLike then do
    let held ← Plan.evaluateQuietly [.left] left demand.forValue
    let value ← Plan.evaluateQuietly [.right] right demand.forValue
    Plan.reportIf (value.narrowerThan held)
      ⟨.refAssignValueNarrower, right.span, [left.name, right.name]⟩
  else return ()

/-- What the assignment of a reference amounts to as an expression. -/
def repointed (right : Expr) (demand : Demand) (referent : Scope) : Plan Scope :=
  match demand.mode with
  | .ref => return referent
  | .value => Plan.evaluateQuietly [.right] right demand.forValue

/-- The assignment of a reference evaluates both sides before it checks anything. -/
theorem refAssignment_eq (left right : Expr) (demand : Demand) :
    refAssignment left right demand = (do
      let target ← Plan.evaluate [.left] left demand.forRef
      let referent ← Plan.evaluate [.right] right demand.forRef
      repointing left right demand target referent
      repointed right demand referent) := by
  unfold refAssignment
  congr
  funext target
  congr
  funext referent
  unfold repointing
  dsimp only
  split
  · rfl
  · split
    · rfl
    · rfl

end Rule

namespace Walker

variable (w : Walker)

variable {levels : Nat} {mood : Mood} {path : Path} {left right : Expr} {demand : Demand}
  {s t : State} {scope : Scope}

/-- The value is held against the scope of what holds it. -/
theorem carryOut_valueAssignment (left right : Expr) (demand : Demand) (s : State) :
    w.carryOut levels mood path (Rule.valueAssignment left right demand) s =
      Ending.andThen (w.visit levels mood (path ++ [Step.left]) (.expr left) demand.forValue s)
        fun held s₁ => Ending.andThen
          (w.visit levels mood (path ++ [Step.right]) (.expr right)
            (demand.requiring .value held) s₁)
          fun value s₂ => .ok (demand.rvalue value) s₂ := by
  unfold Rule.valueAssignment
  rw [carryOut_evaluate]
  congr
  funext held s₁
  rw [carryOut_evaluate]
  rfl

/-- The assignment of a value visits the left side for what it may hold, and then the right side
with that as the target. -/
theorem valueAssignment_cases
    (h : w.carryOut levels mood path (Rule.valueAssignment left right demand) s = .ok scope t) :
    ∃ held s₁ value,
      w.visit levels mood (path ++ [Step.left]) (.expr left) demand.forValue s = .ok held s₁ ∧
      w.visit levels mood (path ++ [Step.right]) (.expr right) (demand.requiring .value held) s₁ =
        .ok value t ∧
      scope = demand.rvalue value := by
  rw [carryOut_valueAssignment, Ending.andThen_eq_ok] at h
  obtain ⟨held, s₁, hl, h⟩ := h
  rw [Ending.andThen_eq_ok] at h
  obtain ⟨value, s₂, hr, h⟩ := h
  cases h
  exact ⟨held, s₁, value, hl, hr, rfl⟩

/-- Both locations are read and checked. The value of the whole is that of the right side. -/
theorem refAssignment_cases
    (h : w.carryOut levels mood path (Rule.refAssignment left right demand) s = .ok scope t) :
    ∃ target s₁ referent s₂ u,
      w.visit levels mood (path ++ [Step.left]) (.expr left) demand.forRef s = .ok target s₁ ∧
      w.visit levels mood (path ++ [Step.right]) (.expr right) demand.forRef s₁ = .ok referent s₂ ∧
      w.carryOut levels mood path (Rule.repointing left right demand target referent) s₂ =
        .ok () u ∧
      (s.Silent t ↔ s.Silent s₂ ∧ s₂.Silent u) ∧
      (demand.mode = .value →
        w.visit levels mood.hushed (path ++ [Step.right]) (.expr right) demand.forValue u =
          .ok scope t) := by
  rw [Rule.refAssignment_eq, carryOut_evaluate, Ending.andThen_eq_ok] at h
  obtain ⟨target, s₁, hl, h⟩ := h
  rw [carryOut_evaluate, Ending.andThen_eq_ok] at h
  obtain ⟨referent, s₂, hr, h⟩ := h
  rw [carryOut_bind, Ending.andThen_eq_ok] at h
  obtain ⟨⟨⟩, u, hc, h⟩ := h
  have hg := State.persistent_grows.trans (w.grows_of_visit hl) (w.grows_of_visit hr)
  have hgu := w.carryOut_grows hc
  have hgt := State.persistent_grows.trans hgu (w.carryOut_grows h)
  suffices hlast : u.Silent t ∧ (demand.mode = .value →
      w.visit levels mood.hushed (path ++ [Step.right]) (.expr right) demand.forValue u =
        .ok scope t) by
    refine ⟨target, s₁, referent, s₂, u, hl, hr, hc, ?_, hlast.2⟩
    rw [hg.silent_iff hgt, hgu.silent_iff (w.carryOut_grows h)]
    simp [hlast.1]
  unfold Rule.repointed at h
  cases hm : demand.mode with
  | ref =>
    rw [hm] at h
    cases h
    exact ⟨rfl, fun hv => by cases hv⟩
  | value =>
    rw [hm] at h
    change w.carryOut levels mood path
      (Plan.evaluateQuietly [.right] right demand.forValue >>= pure) u = _ at h
    rw [carryOut_evaluateQuietly, Ending.andThen_eq_ok] at h
    obtain ⟨_, _, hv, h⟩ := h
    cases h
    exact ⟨w.silent_of_hushed hv, fun _ => hv⟩

/-- A reference to a ref struct is reported if the location is narrower, or if it is not and the
value is. -/
theorem repointing_cases (hq : mood.quiet = false) (hty : left.ty.isRefLike = true)
    {target referent : Scope}
    (h : w.carryOut levels mood path (Rule.repointing left right demand target referent) s =
      .ok () t) :
    referent.narrowerThan target = true ∧ ¬ s.Silent t ∨
      referent.narrowerThan target = false ∧ ∃ held s₁ value s₂,
        w.visit levels mood.hushed (path ++ [Step.left]) (.expr left) demand.forValue s =
          .ok held s₁ ∧
        w.visit levels mood.hushed (path ++ [Step.right]) (.expr right) demand.forValue s₁ =
          .ok value s₂ ∧
        t.memo = s₂.memo ∧ (s.Silent t ↔ value.narrowerThan held = false) := by
  unfold Rule.repointing at h
  by_cases hn : referent.narrowerThan target = true
  · rw [if_pos hn] at h
    cases h
    exact .inl ⟨hn, State.not_silent_reported hq s _⟩
  · rw [if_neg hn, if_pos hty, carryOut_evaluateQuietly, Ending.andThen_eq_ok] at h
    obtain ⟨held, s₁, hl, h⟩ := h
    rw [carryOut_evaluateQuietly, Ending.andThen_eq_ok] at h
    obtain ⟨value, s₂, hr, h⟩ := h
    obtain ⟨hm, hsilent⟩ := w.carryOut_reportIf hq h
    have hg := State.persistent_grows.trans (w.grows_of_visit hl) (w.grows_of_visit hr)
    have hquiet : s.Silent s₂ := (w.silent_of_hushed hr).trans (w.silent_of_hushed hl)
    refine .inr ⟨Bool.eq_false_iff.mpr hn, held, s₁, value, s₂, hl, hr, hm, ?_⟩
    rw [hg.silent_iff (w.carryOut_grows h), hsilent]
    exact and_iff_right hquiet

/-! ### An assignment as a value -/

/-- The expression at a path, visited for its value from a state, vouches for a target: its own form
answers for it, or it assigns to something whose value reaches at least as far as the target and
checks the right side against that. -/
inductive Vouches (w : Walker) (mood : Mood) (block : Scope) :
    Nat → Path → Scope → Expr → State → Prop
  | accountable {levels : Nat} {path : Path} {target : Scope} {e : Expr} {s : State}
      (he : e.Accountable w.setting.rules .value) : Vouches w mood block levels path target e s
  | stored {levels : Nat} {path : Path} {target held : Scope} {left right : Expr} {ty : Ty}
      {span : Span} {s s₁ : State}
      (hl : w.visit levels mood (path ++ [Step.left]) (.expr left) ⟨block, .value, block⟩ s =
        .ok held s₁)
      (hle : held ≤ target)
      (hr : Vouches w mood block levels (path ++ [Step.right]) held right s₁) :
      Vouches w mood block (levels + 1) path target ⟨.assignment left right false, ty, span⟩ s
  | repointed {levels : Nat} {path : Path} {target location referent held : Scope}
      {left right : Expr} {ty : Ty} {span : Span} {s s₁ s₂ s₃ : State}
      (hw : w.memoizes = true) (hty : left.ty.isRefLike = true)
      (hl : w.visit levels mood (path ++ [Step.left]) (.expr left) ⟨block, .ref, block⟩ s =
        .ok location s₁)
      (hr : w.visit levels mood (path ++ [Step.right]) (.expr right) ⟨block, .ref, block⟩ s₁ =
        .ok referent s₂)
      (hh : w.visit levels mood.hushed (path ++ [Step.left]) (.expr left)
        ⟨block, .value, block⟩ s₂ = .ok held s₃)
      (hle : held ≤ target) :
      Vouches w mood block (levels + 1) path target ⟨.assignment left right true, ty, span⟩ s

/-- What vouches for a target reports a narrower value. -/
theorem Vouches.reports (hq : mood.quiet = false) {block target : Scope} {e : Expr}
    (h : w.Vouches mood block levels path target e s) (hs : s.Fresh path)
    (hv : w.visit levels mood path (.expr e) ⟨block, .value, target⟩ s = .ok scope t)
    (hn : scope.narrowerThan target = true) : ¬ s.Silent t := by
  induction h generalizing scope t with
  | accountable he =>
    obtain ⟨t', hv'⟩ := w.visit_retargeted hs hv .unused
    rw [w.silent_iff_of_accountable hq he hs hv hv']
    simp [hn]
  | stored hl hle hr ih =>
    obtain ⟨u, hrun, -, hd⟩ := w.carryOut_of_visit hs hv
    obtain ⟨_, _, value, hl', hr', rfl⟩ := w.valueAssignment_cases hrun
    cases hl.symm.trans hl'
    have hright := ih (w.fresh_sibling (by decide) (hs.part _) hl) hr'
      (Scope.narrowerThan_of_le hle hn)
    intro hsilent
    have hu := ((w.grows_of_visit hl).silent_iff (w.grows_of_visit hr')).mp (hd.symm.trans hsilent)
    exact hright hu.2
  | repointed hw hty hl hr hh hle =>
    obtain ⟨u, hrun, -, hd⟩ := w.carryOut_of_visit hs hv
    obtain ⟨_, _, _, _, u', hl', hr', hc, hsilent, hlast⟩ := w.refAssignment_cases hrun
    cases hl.symm.trans hl'
    cases hr.symm.trans hr'
    suffices hchecks : ¬ State.Silent _ u' from
      fun h => hchecks (hsilent.mp (hd.symm.trans h)).2
    rcases w.repointing_cases hq hty hc with
      ⟨-, hreported⟩ | ⟨-, _, _, value, _, hh', hv', hm, hsil⟩
    · exact hreported
    · cases hh.symm.trans hh'
      -- The value is read once more for the answer, and that reading is recalled.
      obtain ⟨_, hagain⟩ := w.visit_hushed_again hw hv' hm
      cases hagain.symm.trans (hlast rfl)
      simp [hsil, Scope.narrowerThan_of_le hle hn]

/-- An assignment is checked against what holds the value and not against its own target. Asked for
its value, it has the same answer and the same diagnostics under every target. A value that is
narrower than the target is reported if the assignment vouches for it, hence whenever the value of
the left side reaches as far as the target and the right side answers for its own. If a value is
stored that answers for its target, then the assignment is silent exactly if its sides are silent by
themselves and the value reaches as far as what holds it. -/
theorem assignment_checked_against_holder (levels : Nat) {mood : Mood} (hq : mood.quiet = false)
    (path : Path) (left right : Expr) (byRef : Bool) (ty : Ty) (span : Span) (block target : Scope)
    {s s' : State} (hs : s.Fresh path) {scope : Scope}
    (hv : w.visit (levels + 1) mood path (.expr ⟨.assignment left right byRef, ty, span⟩)
      ⟨block, .value, target⟩ s = .ok scope s') :
    (∀ other, ∃ t,
      w.visit (levels + 1) mood path (.expr ⟨.assignment left right byRef, ty, span⟩)
        ⟨block, .value, other⟩ s = .ok scope t ∧
      t.journal.diagnostics = s'.journal.diagnostics) ∧
    (w.Vouches mood block (levels + 1) path target ⟨.assignment left right byRef, ty, span⟩ s →
      scope.narrowerThan target = true →
      s.journal.diagnostics.size < s'.journal.diagnostics.size) ∧
    (byRef = false → right.Accountable w.setting.rules .value → ∃ held s₁ t,
      w.visit levels mood (path ++ [Step.left]) (.expr left) ⟨block, .value, block⟩ s =
        .ok held s₁ ∧
      w.visit levels mood (path ++ [Step.right]) (.expr right) ⟨block, .value, .unused⟩ s₁ =
        .ok scope t ∧
      (s.Silent s' ↔ s.Silent s₁ ∧ s₁.Silent t ∧ scope.narrowerThan held = false)) := by
  refine ⟨?_, ?_, ?_⟩
  · intro other
    have hblind : Rule.expr w.setting ⟨.assignment left right byRef, ty, span⟩
        ⟨block, .value, target⟩ =
        Rule.expr w.setting ⟨.assignment left right byRef, ty, span⟩ ⟨block, .value, other⟩ := by
      cases byRef
      · rfl
      · rfl
    obtain ⟨u, hrun, -, hd⟩ := w.carryOut_of_visit hs hv
    rw [hblind] at hrun
    obtain ⟨t, hv', -, hd'⟩ := w.visit_of_carryOut hs hrun
    exact ⟨t, hv', hd'.trans hd.symm⟩
  · intro hvouch hn
    exact (w.grows_of_visit hv).size_lt (hvouch.reports w hq hs hv hn)
  · rintro rfl hacc
    obtain ⟨u, hrun, -, hd⟩ := w.carryOut_of_visit hs hv
    obtain ⟨held, s₁, _, hl, hr, rfl⟩ := w.valueAssignment_cases hrun
    have hf : s₁.Fresh (path ++ [Step.right]) := w.fresh_sibling (by decide) (hs.part _) hl
    obtain ⟨t, hfree⟩ := w.visit_retargeted hf hr .unused
    refine ⟨held, s₁, t, hl, hfree, ?_⟩
    rw [State.silent_congr hd, (w.grows_of_visit hl).silent_iff (w.grows_of_visit hr),
      w.silent_iff_of_accountable hq hacc hf hr hfree]

/-- Both holders of a chain of assignments reach as far as the target. The stored value stays in a
nested block, and that is reported. -/
theorem assignment_checked_against_holder_chain :
    let w : Walker := ⟨⟨.updated, { name := "f", returnTy := .void, span := default }⟩, 8, true⟩
    let x : Local := { id := 0, name := "x", ty := .span .int, span := default }
    let y : Local := { id := 1, name := "y", ty := .span .int, span := default }
    let z : Local := { id := 2, name := "z", ty := .span .int, span := default }
    let inner : Expr := ⟨.assignment ⟨.localVar y, .span .int, default⟩
      ⟨.localVar z, .span .int, default⟩ false, .span .int, default⟩
    let e : Expr :=
      ⟨.assignment ⟨.localVar x, .span .int, default⟩ inner false, .span .int, default⟩
    let s : State :=
      { lifetimes := ((Lifetimes.empty.insert 0 ⟨.currentMethod, .currentMethod⟩).insert 1
          ⟨.currentMethod, .callingMethod⟩).insert 2 ⟨.block 1, .block 1⟩ }
    s.Fresh [] ∧ w.Vouches {} (.block 1) 8 [] .currentMethod e s ∧
      ∃ s' t, w.visit 8 {} [] (.expr e) ⟨.block 1, .value, .currentMethod⟩ s = .ok (.block 1) s' ∧
        w.visit 8 {} [] (.expr e) ⟨.block 1, .value, .unused⟩ s = .ok (.block 1) t ∧
        s.journal.diagnostics.size < s'.journal.diagnostics.size ∧
        t.journal.diagnostics = s'.journal.diagnostics := by
  intro w x y z inner e s
  have hs : s.Fresh [] := fun _ _ _ => rfl
  have hz : Expr.Accountable .updated .value ⟨.localVar z, .span .int, default⟩ :=
    .intro rfl (by simp [Expr.resultParts])
  have hv : w.visit 8 {} [] (.expr e) ⟨.block 1, .value, .currentMethod⟩ s = .ok (.block 1)
      (Ending.state (w.visit 8 {} [] (.expr e) ⟨.block 1, .value, .currentMethod⟩ s)) := rfl
  have hvouch : w.Vouches {} (.block 1) 8 [] .currentMethod e s :=
    .stored rfl (by decide) (.stored rfl (by decide) (.accountable hz))
  obtain ⟨hblind, hreports, -⟩ :=
    w.assignment_checked_against_holder 7 (rfl : ({} : Mood).quiet = false) [] _ _ _ _ _ _ _ hs hv
  obtain ⟨t, hvt, ht⟩ := hblind .unused
  exact ⟨hs, hvouch, _, t, hv, hvt, hreports hvouch (by decide), ht⟩

/-- An assignment between locals that stay in the method is carried to the caller without a
complaint, although its value may not be. -/
theorem assignment_narrows_silently :
    let w : Walker :=
      ⟨⟨.updated, { name := "f", returnTy := .span .int, span := default }⟩, 8, true⟩
    let x : Local := { id := 0, name := "s", ty := .span .int, span := default }
    let y : Local := { id := 1, name := "t", ty := .span .int, span := default }
    let e : Expr := ⟨.assignment ⟨.localVar x, .span .int, default⟩
      ⟨.localVar y, .span .int, default⟩ false, .span .int, default⟩
    let s : State :=
      { lifetimes := (Lifetimes.empty.insert 0 ⟨.currentMethod, .currentMethod⟩).insert 1
          ⟨.currentMethod, .currentMethod⟩ }
    s.Fresh [] ∧ ∃ s',
      w.visit 8 {} [] (.expr e) ⟨.currentMethod, .value, .callingMethod⟩ s =
        .ok .currentMethod s' ∧
      Scope.currentMethod.narrowerThan .callingMethod = true ∧
      s'.journal.diagnostics = s.journal.diagnostics :=
  ⟨fun _ _ _ => rfl, _, rfl, rfl, rfl⟩

/-! ### References to ref structs -/

/-- After the first visit of an expression without declarations the record is what it was, and the
expression is settled and trusted. -/
theorem settled_of_visit (hw : w.memoizes = true) (hq : mood.quiet = false) {e : Expr}
    (he : e.sites = []) (hs : s.Fresh path)
    (hv : w.visit levels mood path (.expr e) demand s = .ok scope t) :
    s.lifetimes.Same t.lifetimes ∧
      Node.Steady w.setting levels t.lifetimes (.expr e) demand scope ∧
      Node.Settled w.setting levels t.lifetimes demand.block (.expr e) ∧
      Node.Trusted w.setting t levels path (.expr e) := by
  have hids : Node.ids w.setting levels (.expr e) = [] :=
    List.subset_nil.mp (he ▸ Node.ids_subset_sites w.setting levels (.expr e))
  have hm := matchesFirst hw levels mood path (.expr e) demand s s hq ⟨fun _ => rfl, rfl⟩ hs
    (by simp [hids]) (by simp [hids])
  unfold Matches at hm
  rw [hv] at hm
  generalize w.afresh.visit levels mood path (.expr e) demand s = r at hm
  cases hm with
  | ok h =>
    obtain ⟨-, -, hd, hsteady, hsettled, htrusted⟩ := h
    exact ⟨fun id => (hd.others id (by simp [hids])).symm, hsteady, hsettled, htrusted⟩

/-- The value of an expression without declarations is the same whether it is read at first or
quietly later on, and reading it later records nothing. -/
theorem value_of_settled (hw : w.memoizes = true) (hq : mood.quiet = false) {e : Expr}
    {block value value' : Scope} {u u' : State} (he : e.sites = []) (hs : s.Fresh path)
    (hfirst : w.visit levels mood path (.expr e) ⟨block, .value, block⟩ s = .ok value t)
    (hsettled : Node.Settled w.setting levels u.lifetimes block (.expr e))
    (htrusted : Node.Trusted w.setting u levels path (.expr e))
    (hsame : s.lifetimes.Same u.lifetimes)
    (hlater : w.visit levels mood.hushed path (.expr e) ⟨block, .value, block⟩ u = .ok value' u') :
    value' = value ∧ u.lifetimes.Same u'.lifetimes := by
  obtain ⟨hl, hsteady, -, -⟩ := w.settled_of_visit hw hq he hs hfirst
  have hagain : w.Recomputes levels mood.hushed path (.expr e) ⟨block, .value, block⟩ u :=
    w.visit_settled rfl hsettled fun _ => htrusted
  obtain ⟨_, _, hv, hsteady', hun, -⟩ := hagain
  cases hv.symm.trans hlater
  exact ⟨hsteady'.unique (hsteady.mono (hl.symm.trans hsame).sub), hun.lifetimes⟩

/-- Values that are read quietly after both locations are those that are read beforehand, if neither
side declares anything. -/
theorem values_after_locations (hw : w.memoizes = true) (hq : mood.quiet = false)
    {block target referent held held' value value' : Scope} {s₁ s₂ s₃ s₄ t' : State}
    (hleft : left.sites = []) (hright : right.sites = []) (hs : s.Fresh path)
    (hl : w.visit levels mood (path ++ [Step.left]) (.expr left) ⟨block, .ref, block⟩ s =
      .ok target s₁)
    (hr : w.visit levels mood (path ++ [Step.right]) (.expr right) ⟨block, .ref, block⟩ s₁ =
      .ok referent s₂)
    (hh' : w.visit levels mood.hushed (path ++ [Step.left]) (.expr left) ⟨block, .value, block⟩ s₂ =
      .ok held' s₃)
    (hv' : w.visit levels mood.hushed (path ++ [Step.right]) (.expr right)
      ⟨block, .value, block⟩ s₃ = .ok value' s₄)
    (hh : w.visit levels mood (path ++ [Step.left]) (.expr left) ⟨block, .value, block⟩ s =
      .ok held t)
    (hv : w.visit levels mood (path ++ [Step.right]) (.expr right) ⟨block, .value, block⟩ s =
      .ok value t') :
    held' = held ∧ value' = value := by
  have hne : Step.left ≠ Step.right := by decide
  obtain ⟨hsame₁, -, hset₁, htr₁⟩ := w.settled_of_visit hw hq hleft (hs.part _) hl
  obtain ⟨hsame₂, -, hset₂, htr₂⟩ :=
    w.settled_of_visit hw hq hright (w.fresh_sibling hne (hs.part _) hl) hr
  have hsame := hsame₁.trans hsame₂
  -- The left side is still settled when the right side has been visited, and the other way round.
  have hleft₂ : w.Visited levels path block s₂ ⟨[.left], .expr left, false, .freely⟩ :=
    Visited.mono ⟨hset₁, htr₁⟩ (w.sameOutside_of_visit hr) (fun h => absurd h hne.symm) hsame₂.sub
  obtain ⟨hheld, hsame₃⟩ :=
    w.value_of_settled hw hq hleft (hs.part _) hh hleft₂.settled hleft₂.trusted hsame hh'
  have hright₃ : w.Visited levels path block s₃ ⟨[.right], .expr right, false, .freely⟩ :=
    Visited.mono ⟨hset₂, htr₂⟩ (w.sameOutside_of_visit hh') (fun h => absurd h hne) hsame₃.sub
  obtain ⟨hvalue, -⟩ := w.value_of_settled hw hq hright (hs.part _) hv hright₃.settled
    hright₃.trusted (hsame.trans hsame₃) hv'
  exact ⟨hheld, hvalue⟩

/-- A reference to a ref struct is pointed to another location without a complaint exactly if both
sides are read without one, the location on the right reaches as far as that on the left, and so
does the value. That the value on the left reaches as far as that on the right is not asked. If
neither side declares anything, then the values are those that are read there beforehand. -/
theorem refAssignment_silent_iff (levels : Nat) {mood : Mood} (hq : mood.quiet = false)
    (path : Path) {left right : Expr} (hty : left.ty.isRefLike = true) (ty : Ty) (span : Span)
    (demand : Demand) {s s' : State} (hs : s.Fresh path) {scope : Scope}
    (hv : w.visit (levels + 1) mood path (.expr ⟨.assignment left right true, ty, span⟩) demand s =
      .ok scope s') :
    (s.Silent s' ↔ ∃ target s₁ referent s₂ held s₃ value s₄,
      w.visit levels mood (path ++ [Step.left]) (.expr left) demand.forRef s = .ok target s₁ ∧
      w.visit levels mood (path ++ [Step.right]) (.expr right) demand.forRef s₁ = .ok referent s₂ ∧
      w.visit levels mood.hushed (path ++ [Step.left]) (.expr left) demand.forValue s₂ =
        .ok held s₃ ∧
      w.visit levels mood.hushed (path ++ [Step.right]) (.expr right) demand.forValue s₃ =
        .ok value s₄ ∧
      s.Silent s₂ ∧ referent.narrowerThan target = false ∧ value.narrowerThan held = false) ∧
    (w.memoizes = true → left.sites = [] → right.sites = [] → ∀ held t value t',
      w.visit levels mood (path ++ [Step.left]) (.expr left) demand.forValue s = .ok held t →
      w.visit levels mood (path ++ [Step.right]) (.expr right) demand.forValue s = .ok value t' →
      s.Silent s' → value.narrowerThan held = false) := by
  obtain ⟨u, hrun, -, hd⟩ := w.carryOut_of_visit hs hv
  obtain ⟨target, s₁, referent, s₂, u', hl, hr, hc, hsilent, -⟩ := w.refAssignment_cases hrun
  have hsu : s.Silent s' ↔ s.Silent s₂ ∧ s₂.Silent u' := by
    rw [← hsilent]
    exact ⟨hd.symm.trans, hd.trans⟩
  have hchecks := w.repointing_cases hq hty hc
  rw [hsu]
  constructor
  · constructor
    · rintro ⟨hreads, hquiet⟩
      rcases hchecks with ⟨-, hreported⟩ | ⟨hn, held, s₃, value, s₄, hh, hvalue, -, hsil⟩
      · exact absurd hquiet hreported
      · exact ⟨target, s₁, referent, s₂, held, s₃, value, s₄, hl, hr, hh, hvalue, hreads, hn,
          hsil.mp hquiet⟩
    · rintro ⟨_, _, _, _, held, s₃, value, s₄, hl', hr', hh, hvalue, hreads, hn, hvn⟩
      cases hl.symm.trans hl'
      cases hr.symm.trans hr'
      rcases hchecks with ⟨hn', -⟩ | ⟨-, _, _, _, _, hh', hvalue', -, hsil⟩
      · rw [hn] at hn'
        cases hn'
      · cases hh.symm.trans hh'
        cases hvalue.symm.trans hvalue'
        exact ⟨hreads, hsil.mpr hvn⟩
  · rintro hw hleft hright held t value t' hheld hvalue ⟨-, hquiet⟩
    rcases hchecks with ⟨-, hreported⟩ | ⟨-, held', s₃, value', s₄, hh, hvalue', -, hsil⟩
    · exact absurd hquiet hreported
    · obtain ⟨rfl, rfl⟩ :=
        w.values_after_locations hw hq hleft hright hs hl hr hh hvalue' hheld hvalue
      exact hsil.mp hquiet

/-- The value on the right stays in the method and what the reference refers to may be carried to
the caller. That is reported. -/
theorem refAssignment_silent_iff_narrower :
    let w : Walker := ⟨⟨.updated, { name := "f", returnTy := .void, span := default }⟩, 8, true⟩
    let x : Local := { id := 0, name := "x", ty := .span .int, span := default }
    let y : Local := { id := 1, name := "y", ty := .span .int, span := default }
    let left : Expr := ⟨.localVar x, .span .int, default⟩
    let right : Expr := ⟨.localVar y, .span .int, default⟩
    let demand : Demand := ⟨.currentMethod, .value, .currentMethod⟩
    let s : State :=
      { lifetimes := (Lifetimes.empty.insert 0 ⟨.currentMethod, .callingMethod⟩).insert 1
          ⟨.currentMethod, .currentMethod⟩ }
    left.ty.isRefLike = true ∧ s.Fresh [] ∧
      ∃ scope s',
        w.visit 8 {} [] (.expr ⟨.assignment left right true, .span .int, default⟩) demand s =
          .ok scope s' ∧
        ¬ s.Silent s' := by
  intro w x y left right demand s
  have hs : s.Fresh [] := fun _ _ _ => rfl
  have hv : w.visit 8 {} [] (.expr ⟨.assignment left right true, .span .int, default⟩) demand s =
      .ok .currentMethod (Ending.state (w.visit 8 {} []
        (.expr ⟨.assignment left right true, .span .int, default⟩) demand s)) := rfl
  obtain ⟨-, hvalues⟩ := w.refAssignment_silent_iff 7 (rfl : ({} : Mood).quiet = false) []
    (rfl : left.ty.isRefLike = true) _ _ _ hs hv
  refine ⟨rfl, hs, _, _, hv, fun hsilent => ?_⟩
  have hn : Scope.currentMethod.narrowerThan .callingMethod = false :=
    hvalues rfl rfl rfl .callingMethod _ .currentMethod _ rfl rfl hsilent
  revert hn
  decide

/-- A reference to a ref struct that stays in the method is pointed to one that may be carried to
the caller, and nothing is reported, although their values differ. -/
theorem refAssignment_to_wider_silent :
    let w : Walker := ⟨⟨.updated, { name := "f", returnTy := .void, span := default }⟩, 8, true⟩
    let x : Local := { id := 0, name := "r", ty := .span .int, span := default }
    let y : Local := { id := 1, name := "wide", ty := .span .int, span := default }
    let left : Expr := ⟨.localVar x, .span .int, default⟩
    let right : Expr := ⟨.localVar y, .span .int, default⟩
    let demand : Demand := ⟨.currentMethod, .value, .currentMethod⟩
    let s : State :=
      { lifetimes := (Lifetimes.empty.insert 0 ⟨.currentMethod, .currentMethod⟩).insert 1
          ⟨.currentMethod, .callingMethod⟩ }
    left.ty.isRefLike = true ∧ s.Fresh [] ∧ ∃ scope s' held t value t',
      w.visit 8 {} [] (.expr ⟨.assignment left right true, .span .int, default⟩) demand s =
        .ok scope s' ∧
      s'.journal.diagnostics = s.journal.diagnostics ∧
      w.visit 7 {} [.left] (.expr left) demand.forValue s = .ok held t ∧
      w.visit 7 {} [.right] (.expr right) demand.forValue s = .ok value t' ∧
      held.narrowerThan value = true :=
  ⟨rfl, fun _ _ _ => rfl, _, _, .currentMethod, _, .callingMethod, _, rfl, rfl, rfl, rfl, rfl⟩

end Walker

end RefLifetime
