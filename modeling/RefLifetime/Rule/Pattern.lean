import RefLifetime.Plan

/-!
# Patterns

Matching declares the variables that a pattern designates. A variable of a ref-like type lives as
long as the matched value; any other value may be carried anywhere.
-/

namespace RefLifetime

namespace Rule

/-- Declares a variable introduced in the middle of an expression. -/
def designate (var : Local) (demand : Demand) (value : Scope) : Plan Unit :=
  Plan.declaring var ⟨demand.block, if var.modifier = .scopedValue then demand.block else value⟩

/-- What remains of the scope `input` in a part of type `ty`. -/
def carried (ty : Ty) (input : Scope) : Scope := if ty.isRefLike then input else .callingMethod

/-- Declares the variable that a pattern names, if it names one. -/
def designation (var : Option Local) (input : Scope) (demand : Demand) : Plan Unit :=
  match var with
  | none => return ()
  | some v => designate v demand (carried v.ty input)

mutual

/-- Matches a value of scope `input` with a pattern that stands at `route` in its node. -/
def pattern (route : Path) (input : Scope) (demand : Demand) : Pattern → Plan Unit
  | .discard | .type _ => return ()
  | .constant value | .relational value => do
    discard (Plan.evaluate (route ++ [.operand]) value demand.forValue)
  | .declaration var => designation var input demand
  | .recursive properties var => do
    propertyPatterns route input demand 0 properties
    designation var input demand
  | .list elements var => do
    elementPatterns route input demand 0 elements
    designation var input demand
  | .slice none => return ()
  | .slice (some rest) => pattern (route ++ [.operand]) input demand rest
  | .not inner => pattern (route ++ [.operand]) input demand inner
  | .and left right | .or left right => do
    pattern (route ++ [.left]) input demand left
    pattern (route ++ [.right]) input demand right

/-- Matches the elements of a list, counted from `i`. -/
def elementPatterns (route : Path) (input : Scope) (demand : Demand) (i : Nat) :
    List Pattern → Plan Unit
  | [] => return ()
  | p :: rest => do
    pattern (route ++ [.element i]) input demand p
    elementPatterns route input demand (i + 1) rest

/-- Matches the fields of a value, counted from `i`. -/
def propertyPatterns (route : Path) (input : Scope) (demand : Demand) (i : Nat) :
    List Property → Plan Unit
  | [] => return ()
  | ⟨member, p⟩ :: rest => do
    pattern (route ++ [.element i]) (carried member.ty input) demand p
    propertyPatterns route input demand (i + 1) rest

end

end Rule

end RefLifetime
