import RefLifetime.Scope

/-!
# Lifetimes of locals

`Lifetimes` maps the locals declared so far to the scopes of their locations and values. Declaring a
local again replaces what was recorded.
-/

namespace RefLifetime

/-- How far the location and the value of a local may be carried. -/
structure Lifetime where
  ref : Scope
  value : Scope
  deriving DecidableEq, Repr, Inhabited

/-- The lifetimes of the locals declared so far, by identifier. -/
structure Lifetimes where
  entries : List (Nat × Lifetime) := []
  deriving DecidableEq, Repr, Inhabited

namespace Lifetimes

/-- No local is declared. -/
def empty : Lifetimes := ⟨[]⟩

/-- What is recorded for a local. -/
def get? (table : Lifetimes) (id : Nat) : Option Lifetime := table.entries.lookup id

/-- Records the lifetime of a local, in place of an earlier one. -/
def insert (table : Lifetimes) (id : Nat) (lifetime : Lifetime) : Lifetimes :=
  ⟨(id, lifetime) :: table.entries.filter (·.1 != id)⟩

/-- The local is declared. -/
def contains (table : Lifetimes) (id : Nat) : Bool := (table.get? id).isSome

/-- How many locals are declared. -/
def size (table : Lifetimes) : Nat := table.entries.length

/-- No local is declared. -/
def isEmpty (table : Lifetimes) : Bool := table.entries.isEmpty

private theorem lookup_filter_ne (entries : List (Nat × Lifetime)) {id key : Nat} (h : key ≠ id) :
    (entries.filter (·.1 != id)).lookup key = entries.lookup key := by
  induction entries with
  | nil => rfl
  | cons entry rest ih =>
    obtain ⟨other, lifetime⟩ := entry
    by_cases he : other = id
    · have hk : (key == id) = false := by simpa using h
      simp [he, List.lookup_cons, hk, ih]
    · simp [he, List.lookup_cons, ih]

/-- The last record of a local is the one that counts, and other locals are not affected. -/
theorem get?_insert (table : Lifetimes) (id key : Nat) (lifetime : Lifetime) :
    (table.insert id lifetime).get? key = if key = id then some lifetime else table.get? key := by
  by_cases h : key = id
  · simp [insert, get?, h]
  · have hk : (key == id) = false := by simpa using h
    simp [insert, get?, h, hk, List.lookup_cons, lookup_filter_ne _ h]

/-- Nothing is recorded at the start. -/
theorem get?_empty (key : Nat) : empty.get? key = none := rfl

end Lifetimes

end RefLifetime
