/-!
# Analysis options
-/

namespace RefLifetime

/-- The generation of the escape rules. -/
inductive Rules where
  /-- Rules without `ref` fields: nothing is return-only, `out` parameters are not implicitly
  scoped, and references do not flow into ref structs. -/
  | legacy
  | updated
  deriving DecidableEq, Repr

namespace Rules

/-- The rules know `ref` fields and the return-only scope. -/
def isUpdated : Rules → Bool
  | legacy => false
  | updated => true

/-- The name of the rules in messages. -/
def name : Rules → String
  | legacy => "Legacy"
  | updated => "Updated"

end Rules

/-- What an analysis can be told besides the method body. -/
structure Options where
  rules : Rules := .updated
  /-- The deepest nesting of statements and expressions that is descended into. -/
  maxDepth : Nat := 256
  deriving DecidableEq, Repr, Inhabited

end RefLifetime
