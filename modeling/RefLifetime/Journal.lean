import RefLifetime.Demand
import RefLifetime.Diagnostic.Basic
import RefLifetime.Lifetime
import RefLifetime.Options
import RefLifetime.Path

/-!
# The journal of an analysis

Everything that an analysis does is entered in its journal, in order. Diagnostics, hints and the log
are read off the journal.
-/

namespace RefLifetime

/-- One entry of the journal. -/
inductive Event where
  /-- The analysis of a method begins. -/
  | started (method : String) (rules : Rules)
  /-- The expression at `path` is asked for; the answer is computed unless it is `recalled`. -/
  | visited (path : Path) (demand : Demand) (quiet recalled : Bool)
  | declared (name : String) (lifetime : Lifetime)
  | reported (diagnostic : Diagnostic)
  /-- An array may be allocated on the stack. -/
  | hinted (id : Nat)
  /-- The analysis of a method ends without failure. -/
  | finished (method : String) (diagnostics hints : Nat)
  deriving DecidableEq, Repr

/-- How detailed a line of the log is. -/
inductive Level where
  | debug
  | trace
  deriving DecidableEq, Repr

/-- The name of a level in the log. -/
def Level.text : Level → String
  | debug => "DEBUG"
  | trace => "TRACE"

namespace Event

/-- The diagnostic, if one was reported. -/
def diagnostic? : Event → Option Diagnostic
  | reported d => some d
  | _ => none

/-- The array for the stack, if a hint was given. -/
def hint? : Event → Option Nat
  | hinted id => some id
  | _ => none

/-- What the log says about an event. Visits are not logged. -/
def entry? : Event → Option (Level × String)
  | started method rules =>
    some (.debug, "analyzing '" ++ method ++ "' under " ++ rules.name ++ " escape rules")
  | visited _ _ _ _ => none
  | declared name lifetime =>
    some (.trace, "local '" ++ name ++ "' declared with ref scope " ++ lifetime.ref.text ++
      " and value scope " ++ lifetime.value.text)
  | reported d => some (.debug, "reporting " ++ d.text)
  | hinted id => some (.trace, "params array NodeId(" ++ id.repr ++ ") may be stack allocated")
  | finished method diagnostics hints =>
    some (.debug, "finished '" ++ method ++ "': " ++ diagnostics.repr ++ " diagnostic(s), " ++
      hints.repr ++ " stack allocation hint(s)")

end Event

/-- The events of an analysis, oldest first. -/
structure Journal where
  events : Array Event := #[]
  deriving DecidableEq, Repr, Inhabited

namespace Journal

/-- Enters an event at the end. -/
def push (j : Journal) (event : Event) : Journal := ⟨j.events.push event⟩

/-- The diagnostics that were reported, in order. -/
def diagnostics (j : Journal) : Diagnostics := ⟨j.events.toList.filterMap Event.diagnostic?⟩

/-- The arrays that may be allocated on the stack, in the order they were found. -/
def hints (j : Journal) : List Nat := j.events.toList.filterMap Event.hint?

/-- The log: a line per logged event, its level first. -/
def log (j : Journal) : List String :=
  (j.events.toList.filterMap Event.entry?).map fun (level, text) => level.text ++ " " ++ text

/-- A new entry adds its diagnostic, if it has one, at the end. -/
theorem diagnostics_push (j : Journal) (event : Event) :
    (j.push event).diagnostics.toList = j.diagnostics.toList ++ event.diagnostic?.toList := by
  simp only [diagnostics, push, Array.toList_push, List.filterMap_append]
  cases h : event.diagnostic? <;> simp [h]

/-- A new entry adds its hint, if it has one, at the end. -/
theorem hints_push (j : Journal) (event : Event) :
    (j.push event).hints = j.hints ++ event.hint?.toList := by
  simp only [hints, push, Array.toList_push, List.filterMap_append]
  cases h : event.hint? <;> simp [h]

end Journal

end RefLifetime
