import RefLifetime.Proofs.Combinations
import RefLifetime.Proofs.Nesting

/-!
# Scopes and their depths

Comparison goes by depth, and depths are cut off at both ends: `block 0` is as deep as the method
body, and the deepest blocks are as deep as `unused`. The canonical scopes are what remains without
these. They are the scopes that their depths give back (`canonical_iff_ofDepth_depth`), one for
every 32-bit number, and the join makes a semilattice of them (`canonical_scopes_semilattice`).

Blocks inside blocks have canonical scopes, and entering a block never widens such a scope
(`Canonical.le_enterBlock`). Where the depths run out, the scope stays what it is and does not
become `unused` (`nested_narrows_to_last`).
-/

namespace RefLifetime

namespace Scope

variable {a b : Scope}

/-! ### Depths of canonical scopes -/

/-- A scope is canonical unless it is `block 0` or a block so deep that its depth is cut off. -/
theorem canonical_iff (scope : Scope) :
    scope.Canonical ↔
      scope ≠ block 0 ∧ ∀ level : UInt32, UInt32.size - 4 < level.toNat → scope ≠ block level := by
  cases scope with
  | callingMethod | returnOnly | currentMethod | unused => simp [Canonical]
  | block level =>
    have hzero : level = 0 ↔ level.toNat = 0 := UInt32.toNat_inj.symm
    simp only [Canonical, bodyDepth, maxDepth, UInt32.size, ne_eq, block.injEq, hzero]
    constructor
    · intro h
      constructor
      · omega
      · rintro other hother rfl
        omega
    · intro h
      have hlevel := Nat.not_lt.mp fun hlt => h.2 level hlt rfl
      omega

/-- Depths between the method body and `unused` are those of blocks. -/
theorem ofDepth_eq_block {depth : Nat} (h : bodyDepth < depth) (h' : depth < maxDepth) :
    ∃ level : UInt32, ofDepth depth = block level ∧ bodyDepth + level.toNat = depth := by
  have hsize : depth - bodyDepth < UInt32.size := by
    simp only [maxDepth] at h'
    simp only [UInt32.size]
    omega
  refine ⟨_, ofDepth_block h h', ?_⟩
  rw [Nat.toUInt32, UInt32.toNat_ofNat_of_lt' hsize]
  omega

/-- Every depth that there is belongs to a canonical scope. -/
theorem canonical_ofDepth {depth : Nat} (h : depth ≤ maxDepth) :
    (ofDepth depth).Canonical ∧ (ofDepth depth).depth = depth := by
  have hcases : depth = 0 ∨ depth = 1 ∨ depth = bodyDepth ∨ depth = maxDepth ∨
      bodyDepth < depth ∧ depth < maxDepth := by
    simp only [bodyDepth]
    omega
  rcases hcases with rfl | rfl | rfl | rfl | ⟨hlow, hhigh⟩
  · exact ⟨trivial, rfl⟩
  · exact ⟨trivial, rfl⟩
  · exact ⟨trivial, rfl⟩
  · exact ⟨trivial, rfl⟩
  · obtain ⟨level, hblock, hlevel⟩ := ofDepth_eq_block hlow hhigh
    rw [hblock, Scope.depth, Canonical]
    omega

/-- The canonical scopes are those that their depths give back. -/
theorem canonical_iff_ofDepth_depth (scope : Scope) :
    scope.Canonical ↔ ofDepth scope.depth = scope := by
  constructor
  · exact Canonical.ofDepth_depth
  · intro h
    rw [← h]
    exact (canonical_ofDepth scope.depth_le_maxDepth).1

/-- Canonical scopes are told apart by their depths. -/
theorem Canonical.eq_of_depth_eq (ha : a.Canonical) (hb : b.Canonical) (h : a.depth = b.depth) :
    a = b := by
  rw [← ha.ofDepth_depth, h, hb.ofDepth_depth]

private theorem compare_eq_iff (a b : Scope) : compare a b = .eq ↔ a.depth = b.depth :=
  Nat.compare_eq_eq

/-! ### Joins of canonical scopes -/

private theorem Canonical.join (ha : a.Canonical) (hb : b.Canonical) : (a.join b).Canonical :=
  join_of ha hb

private theorem join_self (a : Scope) : a.join a = a := ite_self _

private theorem Canonical.join_comm (ha : a.Canonical) (hb : b.Canonical) :
    a.join b = b.join a := by
  apply (ha.join hb).eq_of_depth_eq (hb.join ha)
  rw [depth_join, depth_join, Nat.max_comm]

/-- A combination may be carried where both its parts may be. -/
theorem join_convertibleTo_iff (a b target : Scope) :
    (a.join b).convertibleTo target = true ↔
      a.convertibleTo target = true ∧ b.convertibleTo target = true := by
  simp only [convertibleTo, decide_eq_true_eq, le_def, depth_join]
  omega

/-- The canonical scopes, which are all but `block 0` and the blocks beyond the last depth, are in
one-to-one correspondence with the 32-bit depths. Comparing two of them tells whether they are
equal, and with the join they are a semilattice: it stays among them, is associative, commutative
and idempotent, has the calling method as its identity, and is the least scope that both sides may
be carried to. -/
theorem canonical_scopes_semilattice :
    (∀ s : Scope, s.Canonical ↔
      s ≠ block 0 ∧ ∀ level : UInt32, UInt32.size - 4 < level.toNat → s ≠ block level) ∧
    (∀ d : UInt32, (ofDepth d.toNat).Canonical ∧ (ofDepth d.toNat).depth = d.toNat) ∧
    (∀ s : Scope, s.Canonical ↔ ofDepth s.depth = s) ∧
    (∀ a b : Scope, a.Canonical → b.Canonical →
      (compare a b = .eq ↔ a = b) ∧ (a.join b).Canonical ∧ a.join b = b.join a) ∧
    (∀ a b c : Scope, a.Canonical → b.Canonical → c.Canonical →
      (a.join b).join c = a.join (b.join c)) ∧
    (∀ a : Scope, a.Canonical →
      a.join a = a ∧ callingMethod.join a = a ∧ a.join callingMethod = a) ∧
    ∀ a b target : Scope, a.Canonical → b.Canonical →
      ((a.join b).convertibleTo target = true ↔
        a.convertibleTo target = true ∧ b.convertibleTo target = true) := by
  refine ⟨canonical_iff, fun d => ?_, canonical_iff_ofDepth_depth, fun a b ha hb => ⟨?_, ?_, ?_⟩,
    fun a b c _ _ _ => join_assoc a b c, fun a _ => ?_,
    fun a b target _ _ => join_convertibleTo_iff a b target⟩
  · have hd : d.toNat < UInt32.size := d.toNat_lt_size
    apply canonical_ofDepth
    exact Nat.le_of_lt_succ hd
  · rw [compare_eq_iff]
    constructor
    · exact ha.eq_of_depth_eq hb
    · exact congrArg depth
  · exact ha.join hb
  · exact ha.join_comm hb
  · exact ⟨join_self a, callingMethod_join a, join_callingMethod a⟩

/-- The last block of all and `unused` are neighbours: both are canonical, and the order of a join
does not matter for them. The block after the last one is as deep as `unused` and is not. -/
theorem canonical_scopes_semilattice_last :
    let last := block 4294967292
    last.Canonical ∧ unused.Canonical ∧ ¬ (block 4294967293).Canonical ∧
      ofDepth last.depth = last ∧ compare last unused ≠ .eq ∧
      compare (block 4294967293) unused = .eq ∧ last.join unused = unused.join last ∧
      (last.join unused).convertibleTo unused = true := by
  intro last
  obtain ⟨-, -, hround, hpair, -, -, htarget⟩ := canonical_scopes_semilattice
  have hlast : last.Canonical := by decide
  have hunused : unused.Canonical := trivial
  obtain ⟨hcompare, -, hcomm⟩ := hpair last unused hlast hunused
  refine ⟨hlast, hunused, by decide, (hround last).mp hlast, ?_, rfl, hcomm, ?_⟩
  · rw [ne_eq, hcompare]
    decide
  · exact (htarget last unused unused hlast hunused).mpr ⟨rfl, rfl⟩

/-! ### Blocks inside blocks -/

private theorem depth_enterBlock_block (level : UInt32) :
    (block level).enterBlock.depth = min ((block level).depth + 1) (maxDepth - 1) := by
  have hle : min ((block level).depth + 1) (maxDepth - 1) ≤ maxDepth := by omega
  exact (canonical_ofDepth hle).2

/-- Entering a block leads to a wider scope only from the blocks beyond the last depth. -/
theorem enterBlock_lt_iff (scope : Scope) :
    scope.enterBlock < scope ↔
      ∃ level : UInt32, UInt32.size - 4 < level.toNat ∧ scope = block level := by
  cases scope with
  | callingMethod | returnOnly | currentMethod | unused =>
    constructor
    · intro h
      exact absurd h (by decide)
    · rintro ⟨level, -, h⟩
      cases h
  | block level =>
    rw [lt_def, depth_enterBlock_block]
    simp only [depth, bodyDepth, maxDepth, UInt32.size, block.injEq, exists_eq_right']
    omega

/-- Entering a block never widens a canonical scope. -/
theorem Canonical.le_enterBlock (h : a.Canonical) : a ≤ a.enterBlock := by
  apply Nat.not_lt.mp
  rw [← lt_def, enterBlock_lt_iff]
  rintro ⟨level, hlevel, hblock⟩
  exact ((canonical_iff a).mp h).2 level hlevel hblock

/-- Nested blocks lie one below another, and the depth stops one step above `unused`. -/
theorem depth_nested (k : Nat) : (nested k).depth = min (bodyDepth + k) (maxDepth - 1) := by
  cases k with
  | zero => rfl
  | succ k =>
    obtain ⟨level, hn, hl⟩ := nested_succ k
    rw [hn, depth, hl]
    simp only [bodyDepth, maxDepth]
    omega

/-- A nested scope is that of the method body or of a block that is counted from one. -/
theorem nested_cases (k : Nat) :
    nested k = currentMethod ∨ ∃ level : UInt32, 1 ≤ level.toNat ∧ nested k = block level := by
  cases k with
  | zero => exact .inl rfl
  | succ k =>
    obtain ⟨level, hn, hl⟩ := nested_succ k
    have hlast : 1 ≤ maxDepth - 3 := by decide
    exact .inr ⟨level, by omega, hn⟩

private theorem nested_ne_unused (k : Nat) : nested k ≠ unused := by
  rcases nested_cases k with h | ⟨level, -, h⟩
  · rw [h]
    decide
  · rw [h]
    exact Scope.noConfusion

/-- Nested scopes are canonical: the blocks beyond the last depth are not reached. -/
theorem canonical_nested (k : Nat) : (nested k).Canonical := by
  cases k with
  | zero => trivial
  | succ k =>
    obtain ⟨level, hn, hl⟩ := nested_succ k
    rw [hn, Canonical, hl]
    simp only [bodyDepth, maxDepth]
    omega

/-- A block is narrower than those around it, until the depths run out. -/
theorem nested_lt_nested_iff (j k : Nat) : nested j < nested k ↔ j < k ∧ j < UInt32.size - 4 := by
  simp only [lt_def, depth_nested, bodyDepth, maxDepth, UInt32.size]
  omega

/-- Blocks have the same scope if they are equally many levels down, or both as far down as depths
go. -/
theorem nested_eq_nested_iff (j k : Nat) :
    nested j = nested k ↔ j = k ∨ UInt32.size - 4 ≤ j ∧ UInt32.size - 4 ≤ k := by
  -- Equal depths are not enough for scopes in general, but nested ones are canonical.
  have hdepth : nested j = nested k ↔ (nested j).depth = (nested k).depth :=
    ⟨congrArg depth, (canonical_nested j).eq_of_depth_eq (canonical_nested k)⟩
  rw [hdepth, depth_nested, depth_nested]
  simp only [bodyDepth, maxDepth, UInt32.size]
  omega

/-- A block inside another is never wider. -/
theorem nested_le_add (k n : Nat) : nested k ≤ nested (k + n) := by
  induction n with
  | zero => exact Nat.le_refl _
  | succ n ih => exact Nat.le_trans ih (canonical_nested (k + n)).le_enterBlock

end Scope

/-- The demand inside `k` blocks, one inside another, that a method body opens. -/
def Demand.nested : Nat → Demand
  | 0 => methodBody
  | k + 1 => (nested k).enterBlock

/-- Inside nested blocks values are asked for, and nothing is required beyond the innermost one. -/
theorem Demand.nested_eq (k : Nat) : nested k = ⟨Scope.nested k, .value, Scope.nested k⟩ := by
  induction k with
  | zero => rfl
  | succ k ih =>
    rw [nested, ih]
    rfl

namespace Scope

/-- Entering one block after another from the method body leads down by one depth at a time, to the
depth before that of `unused`, and stays there. The scope is always that of the method body or of a
block counted from one, it is never wider than before, it is narrower after a step up to the last
depth, and it is the same after a step beyond that. The demand that a method body starts with
follows along: it asks for values, and requires nothing beyond the block. -/
theorem nested_narrows_to_last (k : Nat) :
    (nested k).depth = min (2 + k) (UInt32.size - 2) ∧
    (nested k = currentMethod ∨ ∃ level : UInt32, 1 ≤ level.toNat ∧ nested k = block level) ∧
    nested k ≠ unused ∧
    (∀ n, nested k ≤ nested (k + n)) ∧
    ((nested (k + 1)).narrowerThan (nested k) = true ↔ k + 1 ≤ UInt32.size - 4) ∧
    (nested (k + 1) = nested k ↔ UInt32.size - 4 < k + 1) ∧
    Demand.nested k = ⟨nested k, .value, nested k⟩ := by
  refine ⟨depth_nested k, nested_cases k, nested_ne_unused k, nested_le_add k, ?_, ?_,
    Demand.nested_eq k⟩
  · rw [narrowerThan, decide_eq_true_iff, nested_lt_nested_iff]
    omega
  · rw [nested_eq_nested_iff]
    omega

/-- The last block is inside itself, though there is a depth left: it is that of `unused`. -/
example : (block 4294967292).enterBlock = block 4294967292 ∧
    ofDepth ((block 4294967292).depth + 1) = unused := by
  decide

end Scope

end RefLifetime
