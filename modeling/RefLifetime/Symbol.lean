import RefLifetime.Source
import RefLifetime.Ty

/-!
# Symbols

Locals, parameters, fields and methods as the resolved program refers to them. A symbol carries its
whole declaration, so two symbols are the same when their contents are.
-/

namespace RefLifetime

/-- How a variable, argument or result is passed. -/
inductive Passing where
  | byValue
  | byRef
  | byReadOnlyRef
  | byIn
  | byOut
  deriving DecidableEq, Repr

namespace Passing

/-- A reference is passed, not a value. -/
def isByRef (p : Passing) : Bool := p != .byValue

/-- The receiving side may write through the reference. -/
def isWritable : Passing → Bool
  | byRef | byOut => true
  | _ => false

end Passing

/-- The `scoped` modifier of a local or parameter. -/
inductive Modifier where
  | unscoped
  /-- The reference may not leave the method. -/
  | scopedRef
  /-- The value, a ref struct, may not leave the method. -/
  | scopedValue
  deriving DecidableEq, Repr

/-- The construct that declares a local. -/
inductive LocalKind where
  | ordinary
  /-- The iteration variable of a `foreach`. -/
  | iteration
  /-- A variable of a `using` statement. -/
  | resource
  /-- A variable introduced by a pattern or by an `out var` argument. -/
  | designated
  deriving DecidableEq, Repr

namespace LocalKind

/-- Storage owned by the declaring statement is never returned by reference. -/
def isReturnableByRef : LocalKind → Bool
  | ordinary | designated => true
  | iteration | resource => false

/-- How a message calls such a variable. -/
def keyword : LocalKind → String
  | ordinary | designated => "local"
  | iteration => "foreach iteration"
  | resource => "using"

end LocalKind

/-- A local variable. Locals are told apart by `id`. -/
structure Local where
  id : Nat
  name : String
  ty : Ty
  passing : Passing := .byValue
  modifier : Modifier := .unscoped
  kind : LocalKind := .ordinary
  /-- Where the local is declared. -/
  span : Span
  deriving DecidableEq, Repr

/-- A parameter, or the receiver of an instance member. -/
structure Param where
  name : String
  ty : Ty
  passing : Passing := .byValue
  modifier : Modifier := .unscoped
  /-- Lifts the implicit scoping of `out` parameters and receivers. -/
  unscopedRef : Bool := false
  /-- The method promises not to leak the value of this parameter. -/
  nonEscaping : Bool := false
  /-- The parameter collects the remaining arguments in an array. -/
  isParams : Bool := false
  /-- The parameter is the receiver. -/
  isThis : Bool := false
  span : Span
  deriving DecidableEq, Repr

namespace Param

/-- The receiver of an instance member of `container`: by reference for structs, by value for
classes. -/
def receiver (container : Ty) (span : Span) : Param where
  name := "this"
  ty := container
  passing := if container.isReference then .byValue else .byRef
  isThis := true
  span := span

/-- Receivers and `out` parameters are scoped unless marked otherwise. -/
def isImplicitlyScoped (p : Param) : Bool :=
  (p.isThis || p.passing == .byOut) && !p.unscopedRef

end Param

/-- A field of the type `container`. -/
structure Field where
  name : String
  ty : Ty
  passing : Passing := .byValue
  isStatic : Bool := false
  container : Ty
  deriving DecidableEq, Repr

/-- A method or constructor. -/
structure Method where
  name : String
  params : List Param := []
  /-- Present for instance members. -/
  receiver : Option Param := none
  returnTy : Ty
  returnPassing : Passing := .byValue
  /-- The whole body is an unsafe region. -/
  isUnsafe : Bool := false
  span : Span
  deriving DecidableEq, Repr

/-- The method returns a reference. -/
def Method.returnsByRef (m : Method) : Bool := m.returnPassing.isByRef

end RefLifetime
