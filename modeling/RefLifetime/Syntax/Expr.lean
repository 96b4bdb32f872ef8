import RefLifetime.Symbol

/-!
# Expressions and patterns

Resolved expression trees: every node carries its static type, its place in the source and the
symbols it refers to. Only what lifetimes depend on is kept, so literals have no value and
operators have no name.
-/

namespace RefLifetime

/-- What a conversion does to its operand. -/
inductive Conversion where
  | identity
  /-- Between reference types, or between ref structs that keep the operand's contents. -/
  | reference
  | numeric
  /-- Copies the operand to the heap. -/
  | boxing
  deriving DecidableEq, Repr

/-- The converted operand lives exactly as long as the operand. -/
def Conversion.preservesLifetime : Conversion → Bool
  | identity | reference => true
  | numeric | boxing => false

mutual

/-- A typed and located expression. -/
structure Expr where
  form : Form
  ty : Ty
  span : Span

/-- The forms of expressions. -/
inductive Form where
  | literal
  | defaultValue
  | typeToken
  | typeSize
  | localVar (var : Local)
  | param (var : Param)
  /-- The receiver of the method being analysed. -/
  | thisRef
  /-- A field of `receiver`, which static fields need not have. -/
  | field (receiver : Option Expr) (member : Field)
  /-- An element of an array. -/
  | arrayElement (array : Expr) (indices : List Expr)
  | call (receiver : Option Expr) (method : Method) (args : List Argument)
  | objectCreation (constructor : Method) (args : List Argument) (inits : List FieldInit)
  /-- A heap array, also the one that collects the arguments of a `params` parameter. -/
  | arrayCreation (id : Nat) (sizes elements : List Expr)
  | delegateCreation (receiver : Option Expr) (method : Method)
  | stackAlloc (count : Expr) (elements : List Expr)
  /-- A bracketed list converted to its target type. -/
  | collection (elements : List Expr)
  /-- A choice between two values, or between two locations when `byRef`. -/
  | conditional (condition whenTrue whenFalse : Expr) (byRef : Bool)
  | coalesce (left right : Expr)
  | tuple (elements : List Expr)
  | conversion (operand : Expr) (kind : Conversion)
  | unary (operand : Expr)
  | binary (left right : Expr)
  /-- Stores a value, or re-points the left side when `byRef`. -/
  | assignment (left right : Expr) (byRef : Bool)
  | compoundAssignment (left right : Expr)
  /-- A variable declared in an argument list. -/
  | outVar (var : Local)
  | discard
  | isPattern (operand : Expr) (pattern : Pattern)
  | switch (governing : Expr) (arms : List Arm)

/-- An argument and how it is passed. -/
structure Argument where
  value : Expr
  passing : Passing

/-- The value given to a field when an object is created. -/
structure FieldInit where
  field : Field
  value : Expr

/-- One arm of a switch expression. -/
structure Arm where
  pattern : Pattern
  guard : Option Expr
  value : Expr

/-- A pattern that a value is matched with. -/
inductive Pattern where
  | discard
  | constant (value : Expr)
  | type (ty : Ty)
  /-- Comparison with a value. -/
  | relational (value : Expr)
  /-- Names the matched value, or discards it. -/
  | declaration (designation : Option Local)
  | recursive (properties : List Property) (designation : Option Local)
  | list (elements : List Pattern) (designation : Option Local)
  /-- The rest of a list. -/
  | slice (rest : Option Pattern)
  | not (inner : Pattern)
  | and (left right : Pattern)
  | or (left right : Pattern)

/-- A field of the matched value and the pattern it has to meet. -/
structure Property where
  field : Field
  pattern : Pattern

end

/-- The type that a form determines by itself, if it does. -/
def Form.ty? : Form → Option Ty
  | .localVar var | .outVar var => some var.ty
  | .param p => some p.ty
  | .field _ f => some f.ty
  | .call _ method _ => some method.returnTy
  | .conditional _ whenTrue _ _ => some whenTrue.ty
  | .coalesce left _ | .assignment left _ _ => some left.ty
  | .isPattern _ _ => some .bool
  | _ => none

mutual

/-- A short name for an expression, to be cited in a message. -/
def Expr.name : Expr → String
  | ⟨form, _, _⟩ => form.name

/-- A short name for a form: a field is named through its receiver. -/
def Form.name : Form → String
  | .localVar var | .outVar var => var.name
  | .param p => p.name
  | .thisRef => "this"
  | .field (some receiver) f => receiver.name ++ "." ++ f.name
  | .field none f => f.name
  | .call _ method _ => method.name ++ "(...)"
  | .discard => "_"
  | _ => "expression"

end

end RefLifetime
