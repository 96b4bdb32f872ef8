import RefLifetime.Diagnostic.Code
import RefLifetime.Lifetime

/-!
# Sorted listings

Names are listed by their characters' code points, codes in their fixed order and locals by
identifier, each once.
-/

namespace RefLifetime.Listing

/-- Removes repetitions of neighbours. -/
def dedup {α : Type} [DecidableEq α] : List α → List α
  | [] => []
  | [a] => [a]
  | a :: b :: rest => if a = b then dedup (b :: rest) else a :: dedup (b :: rest)

/-- Names in ascending order, without repetitions. -/
def names (xs : List String) : List String := dedup (xs.mergeSort fun a b => !(b < a))

/-- Codes in their fixed order, without repetitions. -/
def codes (xs : List Code) : List Code := dedup (xs.mergeSort fun a b => a.rank ≤ b.rank)

/-- What is recorded for those of the given locals that are declared, by ascending identifier. -/
def lifetimes (table : Lifetimes) (ids : List Nat) : List (Nat × Lifetime) :=
  (dedup (ids.mergeSort (· ≤ ·))).filterMap fun id => (table.get? id).map (id, ·)

end RefLifetime.Listing
