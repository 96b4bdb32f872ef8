/-!
# Lexical escape scopes

A scope names the widest region of the program that a value or a reference may be carried to.
Scopes are compared by depth, from wide to narrow:

    calling method < return only < current method < block 1 < block 2 < … < unused

Depths are 32-bit: the arithmetic saturates below the depth of `unused`. Comparison by depth is
coarser than equality, since `block 0` has the depth of the method body.
-/

namespace RefLifetime

/-- The widest region that a value or reference may be carried to. -/
inductive Scope where
  /-- The caller's frame: free to be returned or stored anywhere. -/
  | callingMethod
  /-- May be returned, but not stored through a parameter. -/
  | returnOnly
  /-- The outermost block of the method body. -/
  | currentMethod
  /-- A block nested `level` levels below the method body. -/
  | block (level : UInt32)
  /-- The scope of a statement, narrower than every real scope. -/
  | unused
  deriving DecidableEq, Repr, Inhabited

namespace Scope

/-- The depth of `unused`, and the largest depth there is: the largest 32-bit number. -/
def maxDepth : Nat := 0xFFFFFFFF

/-- The depth of the method body. -/
def bodyDepth : Nat := 2

/-- Position in the order from wide to narrow; it saturates at `maxDepth`. -/
def depth : Scope → Nat
  | callingMethod => 0
  | returnOnly => 1
  | currentMethod => bodyDepth
  | block level => min (bodyDepth + level.toNat) maxDepth
  | unused => maxDepth

/-- The scope of a given depth. Depths from `maxDepth` on belong to `unused`. -/
def ofDepth (depth : Nat) : Scope :=
  if depth = 0 then callingMethod
  else if depth = 1 then returnOnly
  else if depth = bodyDepth then currentMethod
  else if maxDepth ≤ depth then unused
  else block (depth - bodyDepth).toUInt32

/-- The scope of a block directly inside this one. Nesting stops one step above `unused`. -/
def enterBlock : Scope → Scope
  | callingMethod | returnOnly => currentMethod
  | unused => unused
  | scope => ofDepth (min (scope.depth + 1) (maxDepth - 1))

/-- Scopes are ordered by depth. -/
instance : Ord Scope := ⟨fun a b => compare a.depth b.depth⟩

/-- A smaller scope is a wider one. -/
instance : LE Scope := ⟨fun a b => a.depth ≤ b.depth⟩

/-- A larger scope is a narrower one. -/
instance : LT Scope := ⟨fun a b => a.depth < b.depth⟩

/-- The order of scopes is decided by their depths. -/
instance (a b : Scope) : Decidable (a ≤ b) := inferInstanceAs (Decidable (a.depth ≤ b.depth))

/-- The strict order is decided in the same way. -/
instance (a b : Scope) : Decidable (a < b) := inferInstanceAs (Decidable (a.depth < b.depth))

/-- The narrower of two scopes, and the second one when neither is: a combination lives no longer
than its shortest part. -/
def join (a b : Scope) : Scope := if a ≤ b then b else a

/-- Something of scope `a` may be carried to `target`. -/
def convertibleTo (a target : Scope) : Bool := a ≤ target

/-- Something of scope `a` may not be carried to `b`. -/
def narrowerThan (a b : Scope) : Bool := b < a

/-- Targets at which a failed reference escape reads as returning, rather than as escaping into an
enclosing block. -/
def isReturnTarget : Scope → Bool
  | callingMethod | returnOnly => true
  | _ => false

/-- The narrowest of a list of scopes, starting from the widest scope there is. -/
def joinAll (scopes : List Scope) : Scope := scopes.foldl join callingMethod

/-- The name of a scope in messages. -/
def text : Scope → String
  | callingMethod => "calling-method"
  | returnOnly => "return-only"
  | currentMethod => "current-method"
  | block level => "block+" ++ level.toNat.repr
  | unused => "unused"

/-- Reads the name of a scope. -/
def ofText? (name : String) : Option Scope :=
  match name with
  | "calling-method" => some callingMethod
  | "return-only" => some returnOnly
  | "current-method" => some currentMethod
  | "unused" => some unused
  | _ => do
    let digits := (← name.dropPrefix? "block+").toString
    let level ← digits.toNat?
    if digits.all Char.isDigit && level ≤ maxDepth then some (block level.toUInt32) else none

/-- Comparison by depth, in words of the order. -/
theorem le_def (a b : Scope) : a ≤ b ↔ a.depth ≤ b.depth := Iff.rfl

/-- Strict comparison by depth. -/
theorem lt_def (a b : Scope) : a < b ↔ a.depth < b.depth := Iff.rfl

/-- No scope lies beyond `unused`. -/
theorem depth_le_maxDepth (a : Scope) : a.depth ≤ maxDepth := by
  cases a <;> simp only [depth, bodyDepth, maxDepth] <;> omega

/-- A join is as deep as the deeper of its parts. -/
theorem depth_join (a b : Scope) : (a.join b).depth = max a.depth b.depth := by
  simp only [join, le_def]
  split <;> omega

end Scope

end RefLifetime
