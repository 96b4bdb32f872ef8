import RefLifetime.Scope

/-!
# Demands

A demand is what the surroundings ask of an expression: its value or its location, the scope that
this has to be able to escape to, and the block that the expression stands in.
-/

namespace RefLifetime

/-- Whether an expression is asked for its value or for the location it denotes. -/
inductive Mode where
  | value
  | ref
  deriving DecidableEq, Repr, Inhabited

/-- What is asked of an expression. -/
structure Demand where
  /-- The scope of the innermost enclosing block. -/
  block : Scope
  mode : Mode
  /-- The scope that the result has to be able to escape to. -/
  target : Scope
  deriving DecidableEq, Repr, Inhabited

namespace Demand

/-- The demand that a method body starts with. -/
def methodBody : Demand := ⟨.currentMethod, .value, .currentMethod⟩

/-- Inside a nested block nothing is required beyond that block. -/
def enterBlock (d : Demand) : Demand := ⟨d.block.enterBlock, .value, d.block.enterBlock⟩

/-- Asks for something else at the same place. -/
def requiring (d : Demand) (mode : Mode) (target : Scope) : Demand :=
  { d with mode := mode, target := target }

/-- Asks for the value, with no requirement beyond the block. -/
def forValue (d : Demand) : Demand := d.requiring .value d.block

/-- Asks for the location, with no requirement beyond the block. -/
def forRef (d : Demand) : Demand := d.requiring .ref d.block

/-- Asks for a value that is stored on the heap, hence may be carried anywhere. -/
def forHeap (d : Demand) : Demand := d.requiring .value .callingMethod

/-- Keeps the requirement and changes what is asked for. -/
def withMode (d : Demand) (mode : Mode) : Demand := { d with mode := mode }

/-- A location is asked for. -/
def isRef (d : Demand) : Bool := d.mode == .ref

/-- Operands of an expression without a location are read for their values; a requirement on the
location of the whole does not apply to them. -/
def forOperand (d : Demand) : Demand := if d.isRef then d.forValue else d

/-- The answer of an expression without a location: asked for one, it lives only as long as the
temporary that holds it. -/
def rvalue (d : Demand) (value : Scope) : Scope :=
  match d.mode with
  | .value => value
  | .ref => d.block

end Demand

end RefLifetime
