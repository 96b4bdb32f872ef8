import RefLifetime.Proofs.Keeping

/-!
# Scopes stay within their block

An expression that stands in a block has a scope at least as wide as the block. The scopes that a
rule comes by are those of its parts, of the locals on record and of the parameters, and the block
itself, and the parts of an expression stand in the block of the expression. So it is enough that
every record and every remembered scope obey the rule when a visit begins (`State.Confined`), and
then they obey it when the visit ends.
-/

namespace RefLifetime

/-! ### Scopes that reach the block -/

namespace Scope

variable {a b block : Scope}

private theorem convertibleTo_iff : a.convertibleTo b = true ↔ a.depth ≤ b.depth := by
  rw [convertibleTo, decide_eq_true_eq, le_def]

/-- What reaches the method body reaches every block in it. -/
theorem convertibleTo_of_le_body (hb : currentMethod ≤ block) (ha : a.depth ≤ bodyDepth) :
    a.convertibleTo block = true := by
  rw [convertibleTo_iff]
  exact Nat.le_trans ha hb

/-- The scopes that are there whatever comes in reach the block. -/
theorem closed_convertible (hb : currentMethod ≤ block) :
    Closed (·.convertibleTo block = true) block where
  callingMethod := convertibleTo_of_le_body hb (by decide)
  currentMethod := convertibleTo_of_le_body hb (by decide)
  block := convertibleTo_iff.mpr (Nat.le_refl _)

end Scope

namespace Param

variable (p : Param) (rules : Rules)

private theorem refScope_le_body : (p.refScope rules).depth ≤ Scope.bodyDepth := by
  unfold refScope
  split
  · decide
  · cases rules with
    | legacy => dsimp only; split <;> decide
    | updated => dsimp only; split <;> decide

private theorem valueScope_le_body : (p.valueScope rules).depth ≤ Scope.bodyDepth := by
  unfold valueScope
  split
  · decide
  · split <;> decide

end Param

/-- Parameters may be carried to every block of the method. -/
theorem Setting.allows_convertible (setting : Setting) {block : Scope}
    (hb : Scope.currentMethod ≤ block) (node : Node) :
    setting.Allows (·.convertibleTo block = true) node := by
  intro p _
  constructor
  · exact Scope.convertibleTo_of_le_body hb (p.refScope_le_body setting.rules)
  · exact Scope.convertibleTo_of_le_body hb (p.valueScope_le_body setting.rules)

/-! ### States that obey the rule -/

/-- Every local on record may be carried to `block`, location and value, and every remembered scope
to the block that its expression stands in. -/
structure State.Confined (block : Scope) (s : State) : Prop where
  recorded : ∀ id lifetime, s.lifetimes.get? id = some lifetime →
    lifetime.ref.convertibleTo block = true ∧ lifetime.value.convertibleTo block = true
  remembered : ∀ path demand reading, s.memo.get? path demand = some reading →
    reading.scope.convertibleTo demand.block = true

namespace State.Confined

variable {block : Scope} {s : State}

private theorem note (h : s.Confined block) (event : Event) : (s.note event).Confined block :=
  ⟨h.recorded, h.remembered⟩

private theorem declare (h : s.Confined block) (var : Local) {lifetime : Lifetime}
    (hl : lifetime.ref.convertibleTo block = true ∧ lifetime.value.convertibleTo block = true) :
    (s.declare var lifetime).Confined block := by
  refine ⟨?_, h.remembered⟩
  intro id found hf
  simp only [State.declare, Lifetimes.get?_insert] at hf
  split at hf
  · cases hf
    exact hl
  · exact h.recorded id found hf

private theorem remember (h : s.Confined block) (path : Path) {demand : Demand} {reading : Reading}
    (hr : reading.scope.convertibleTo demand.block = true) :
    (s.remember path demand reading).Confined block := by
  refine ⟨h.recorded, ?_⟩
  intro q asked found hf
  simp only [State.remember, Memo.get?_insert] at hf
  split at hf
  · next hk =>
    cases hf
    cases hk
    exact hr
  · exact h.remembered q asked found hf

end State.Confined

/-- The answer of a visit reaches the block, if there is an answer, and the state is confined in any
case. -/
abbrev Ending.Confined (block : Scope) : Ending Scope → Prop :=
  Ending.Meets (fun scope s => scope.convertibleTo block = true ∧ s.Confined block)
    (State.Confined block)

/-- An expression that does nothing but match with the pattern. -/
def Pattern.test (p : Pattern) : Expr :=
  ⟨.isPattern ⟨.literal, .bool, default⟩ p, .bool, default⟩

/-! ### Visits -/

namespace Walker

variable (w : Walker) {block : Scope}

/-- Parts in the block itself, visited as they should be, meet the contract of the whole. -/
theorem met_confined {node : Node} {stops : List Stop} {visit : Visitor}
    (hstops : Stop.All (Stop.Inner false) stops)
    (hv : ∀ route e demand mood s, demand.block = block → State.Confined block s →
      Ending.Confined block (visit route (.expr e) demand mood s)) (mood : Mood) :
    ((node.contract (·.convertibleTo block = true) block).touring stops block).Met visit mood
      (State.Confined block) where
  visit := by
    rintro route part demand inner s ⟨-, p, hp, rfl, rfl, hd⟩ hs
    obtain ⟨-, hn, e, he⟩ := hstops p hp
    rw [Part.block, hn, if_neg Bool.false_ne_true] at hd
    rw [he]
    exact (hv p.route e demand _ s hd hs).imp (fun scope _ h => ⟨fun _ => h.1, h.2⟩) fun _ h => h
  finds s hs id lifetime hf := hs.recorded id lifetime hf
  declare s var lifetime hs hd := hs.declare var hd.2.1
  note s event hs := hs.note event

private theorem confined_of_compute {levels : Nat} {mood : Mood} {path : Path} {e : Expr}
    {demand : Demand} (hd : demand.block = block)
    (hc : ∀ s, State.Confined block s →
      Ending.Confined block (w.compute levels mood path (.expr e) demand s))
    {s : State} (hs : s.Confined block) :
    Ending.Confined block (w.visit levels mood path (.expr e) demand s) := by
  refine w.visit_meets ?_ ?_ ?_
  · intro scope hm
    obtain ⟨-, reading, hr, rfl, -⟩ := w.remembered_eq_some hm
    have h := hs.remembered path demand reading hr
    rw [hd] at h
    exact ⟨h, hs.note _⟩
  · rintro t (rfl | rfl)
    · exact hc _ hs
    · exact hc _ (hs.note _)
  · intro _ scope t h
    refine ⟨h.1, h.2.remember path ?_⟩
    rw [hd]
    exact h.1

/-- An expression in a block of the method has a scope that reaches the block, and its visit records
and remembers nothing narrower. -/
theorem visit_expr_confined (hb : Scope.currentMethod ≤ block) (levels : Nat) (mood : Mood)
    (path : Path) (e : Expr) {demand : Demand} (hd : demand.block = block) {s : State}
    (hs : s.Confined block) :
    Ending.Confined block (w.visit levels mood path (.expr e) demand s) := by
  induction levels generalizing mood path e demand s with
  | zero => exact w.confined_of_compute hd (fun s hs => .error hs) hs
  | succ levels ih =>
    refine w.confined_of_compute hd (fun s hs => ?_) hs
    rw [compute_succ]
    have hrule : (Rule.expr w.setting e demand).Honours
        (((Node.expr e).contract (·.convertibleTo block = true) block).touring
          (e.stops w.setting) block) (·.convertibleTo block = true) := by
      rw [← hd] at hb ⊢
      exact (Rule.node_tours w.setting (.expr e) demand).honours
        (Rule.expr_honours (Scope.closed_convertible hb) (w.setting.allows_convertible hb _))
        (List.Subset.refl _) fun _ hx => by cases hx
    refine hrule.run (met_confined (e.stops_inner w.setting) ?_ mood) hs
    intro route part asked inner t ha ht
    exact ih inner (path ++ route) part ha ht

/-- Matching with a value whose scope reaches the block records and remembers nothing narrower. -/
theorem pattern_confined (hb : Scope.currentMethod ≤ block) (levels : Nat) (mood : Mood)
    (path route : Path) {input : Scope} (hi : input.convertibleTo block = true) (p : Pattern)
    {demand : Demand} (hd : demand.block = block) {s : State} (hs : s.Confined block) :
    State.Confined block
      (Ending.state (w.carryOut levels mood path (Rule.pattern route input demand p) s)) := by
  have hrule : (Rule.pattern route input demand p).Honours
      (((Node.expr p.test).contract (·.convertibleTo block = true) block).touring
        (p.stops route false) block) fun _ => True := by
    subst hd
    have ht : (Rule.pattern route input demand p).Tours demand True (fun _ => True) []
        (p.stops route false) := Rule.pattern_tours trivial false rfl route input p
    refine ht.honours ?_ (List.Subset.refl _) fun _ hx => by cases hx
    exact Rule.pattern_honours (Scope.closed_convertible hb) (.inl rfl) route hi p fun _ hv => hv
  have hstops : Stop.All (Stop.Inner false) (p.stops route false) :=
    (p.stops_loose route false).imp fun _ h => h.1
  refine (hrule.run (met_confined hstops ?_ mood) hs).state (fun _ _ h => h.2) fun _ h => h
  intro below part asked inner t ha ht
  exact w.visit_expr_confined hb levels inner (path ++ below) part ha ht

/-- Scopes stay within their block. Where every local on record reaches the block and every
remembered scope reaches the block of its own expression, an expression of the block is answered
with a scope that reaches the block, whatever is demanded of it. Records and memory are afterwards
as they were before, and so they are after matching a value that reaches the block. -/
theorem visits_stay_within_block (hb : Scope.currentMethod ≤ block) (levels : Nat) (mood : Mood)
    (path : Path) (mode : Mode) (target : Scope) {s : State} (hs : s.Confined block) :
    (∀ e, Ending.Confined block (w.visit levels mood path (.expr e) ⟨block, mode, target⟩ s)) ∧
    ∀ route p input, input.convertibleTo block = true →
      State.Confined block (Ending.state
        (w.carryOut levels mood path (Rule.pattern route input ⟨block, mode, target⟩ p) s)) := by
  constructor
  · intro e
    exact w.visit_expr_confined hb levels mood path e rfl hs
  · intro route p input hi
    exact w.pattern_confined hb levels mood path route hi p rfl hs

/-- A local of a nested block is matched and named anew. The operand is answered from memory, and
the new name lives no longer than the block. -/
theorem visits_stay_within_block_alias :
    let w : Walker := ⟨⟨.updated, { name := "f", returnTy := .void, span := default }⟩, 8, true⟩
    let x : Local := { id := 0, name := "x", ty := .span .int, span := default }
    let y : Local :=
      { id := 1, name := "y", ty := .span .int, kind := .designated, span := default }
    let e : Expr :=
      ⟨.isPattern ⟨.localVar x, .span .int, default⟩ (.declaration (some y)), .bool, default⟩
    let s : State := (State.declare {} x ⟨.block 1, .block 1⟩).remember [.operand]
      ⟨.block 1, .value, .block 1⟩ ⟨.block 1, false⟩
    Scope.currentMethod ≤ .block 1 ∧ s.Confined (.block 1) ∧
      (∃ scope s', w.visit 8 {} [] (.expr e) ⟨.block 1, .ref, .callingMethod⟩ s = .ok scope s' ∧
        scope.convertibleTo (.block 1) = true ∧ s'.Confined (.block 1) ∧
        s'.lifetimes.get? 1 = some ⟨.block 1, .block 1⟩) ∧
      State.Confined (.block 1) (Ending.state (w.carryOut 8 {} []
        (Rule.pattern [.pattern] (.block 1) ⟨.block 1, .ref, .callingMethod⟩
          (.declaration (some y))) s)) := by
  intro w x y e s
  have hb : Scope.currentMethod ≤ .block 1 := by decide
  have hempty : State.Confined (.block 1) {} :=
    ⟨fun _ _ h => (by cases h), fun _ _ _ h => (by cases h)⟩
  have hs : s.Confined (.block 1) :=
    (hempty.declare x (by decide)).remember [.operand] (by decide)
  obtain ⟨hvisit, hmatch⟩ := w.visits_stay_within_block hb 8 {} [] .ref .callingMethod hs
  refine ⟨hb, hs, ⟨_, _, rfl, ?_⟩, hmatch [.pattern] _ (.block 1) (by decide)⟩
  cases hvisit e with
  | ok h => exact ⟨h.1, h.2, rfl⟩

end Walker

end RefLifetime
