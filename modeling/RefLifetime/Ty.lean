/-!
# Static types

Only what lifetimes depend on is kept of a type: whether its values live on the heap, and whether
they may carry references with a restricted lifetime.
-/

namespace RefLifetime

/-- What a type's values are made of, as far as lifetimes go. -/
inductive Shape where
  /-- Heap objects with unbounded lifetime: classes, arrays, delegates, strings. -/
  | reference
  /-- Ordinary structs and primitives. -/
  | value
  /-- By-ref-like structs. `holdsRefs` is set when a value may carry a reference with a restricted
  lifetime, as a `ref` field or a span does. -/
  | refStruct (holdsRefs : Bool)
  | pointer
  | void
  deriving DecidableEq, Repr

/-- The static type of an expression or symbol. -/
structure Ty where
  name : String
  shape : Shape
  deriving DecidableEq, Repr

namespace Ty

/-- Whole numbers. -/
def int : Ty := ⟨"int", .value⟩

/-- Truth values. -/
def bool : Ty := ⟨"bool", .value⟩

/-- The type of what returns nothing. -/
def void : Ty := ⟨"void", .void⟩

/-- References to objects of any class. -/
def object : Ty := ⟨"object", .reference⟩

/-- References to texts. -/
def string : Ty := ⟨"string", .reference⟩

/-- Arrays live on the heap, whatever they hold. -/
def array (element : Ty) : Ty := ⟨element.name ++ "[]", .reference⟩

/-- A span carries a reference to its first element. -/
def span (element : Ty) : Ty := ⟨"Span<" ++ element.name ++ ">", .refStruct true⟩

/-- A named class. -/
def heap (name : String) : Ty := ⟨name, .reference⟩

/-- A named by-ref-like struct that may hold references. -/
def refStruct (name : String) : Ty := ⟨name, .refStruct true⟩

/-- Values of the type are confined to the stack. -/
def isRefLike (t : Ty) : Bool :=
  match t.shape with
  | .refStruct _ => true
  | _ => false

/-- Values of the type are heap objects. -/
def isReference (t : Ty) : Bool := t.shape == .reference

/-- A value of the type could capture a reference passed alongside it. -/
def holdsRefs (t : Ty) : Bool := t.shape == .refStruct true

/-- Only stack-confined values capture references. -/
theorem isRefLike_of_holdsRefs {t : Ty} (h : t.holdsRefs = true) : t.isRefLike = true := by
  simp only [holdsRefs, beq_iff_eq] at h
  simp [isRefLike, h]

end Ty

end RefLifetime
