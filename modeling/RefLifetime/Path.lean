/-!
# Places in a syntax tree

A node is identified by the path that leads to it from the method body. Paths tell nodes apart even
if they are equal as trees.
-/

namespace RefLifetime

/-- One step from a node, or from a clause of it, to a part. -/
inductive Step where
  | receiver
  | operand
  | left
  | right
  | condition
  | pattern
  | guard
  | body
  | cleanup
  | index (i : Nat)
  | argument (i : Nat)
  | init (i : Nat)
  | size (i : Nat)
  | element (i : Nat)
  | arm (i : Nat)
  | label (i : Nat)
  | increment (i : Nat)
  | stmt (i : Nat)
  deriving DecidableEq, Repr

/-- The steps from the method body to a node, outermost first. -/
abbrev Path := List Step

end RefLifetime
