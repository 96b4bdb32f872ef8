import RefLifetime.Demand
import RefLifetime.Path

/-!
# Remembered scopes

Scopes that were computed before, by the place of the expression and the demand on it. A scope
computed quietly answers quiet visits only: a visit that reports has to find the violations itself.
-/

namespace RefLifetime

/-- A computed scope, and whether its violations went unreported. -/
structure Reading where
  scope : Scope
  quiet : Bool
  deriving DecidableEq, Repr

/-- The scopes computed so far, latest first. -/
structure Memo where
  entries : List ((Path × Demand) × Reading) := []
  deriving DecidableEq, Repr, Inhabited

namespace Memo

/-- Nothing is remembered. -/
def empty : Memo := ⟨[]⟩

/-- What was computed last for an expression under a demand. -/
def get? (memo : Memo) (path : Path) (demand : Demand) : Option Reading :=
  memo.entries.lookup (path, demand)

/-- Remembers a computed scope. -/
def insert (memo : Memo) (path : Path) (demand : Demand) (reading : Reading) : Memo :=
  ⟨((path, demand), reading) :: memo.entries⟩

/-- The remembered answer to a visit, if there is one that serves it. -/
def answer? (memo : Memo) (path : Path) (demand : Demand) (quiet : Bool) : Option Scope :=
  match memo.get? path demand with
  | none => none
  | some reading => if quiet || !reading.quiet then some reading.scope else none

/-- The latest reading of a place is the one that counts. -/
theorem get?_insert (memo : Memo) (path key : Path) (demand asked : Demand) (reading : Reading) :
    (memo.insert path demand reading).get? key asked =
      if (key, asked) = (path, demand) then some reading else memo.get? key asked := by
  simp only [insert, get?, List.lookup_cons]
  by_cases h : (key, asked) = (path, demand)
  · simp [h]
  · have hb : ((key, asked) == (path, demand)) = false := by simpa using h
    simp [h, hb]

end Memo

end RefLifetime
