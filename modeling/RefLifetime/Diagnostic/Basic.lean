import RefLifetime.Source
import RefLifetime.Diagnostic.Template

/-!
# Diagnostics

A finding is a violation at a place, with the arguments of its message. A diagnostic is a finding
with its severity settled; diagnostics are collected in the order they are reported.
-/

namespace RefLifetime

/-- A violation found somewhere, before the region decides its severity. -/
structure Finding where
  kind : Violation
  span : Span
  args : List String
  deriving DecidableEq, Repr

/-- A reported message. -/
structure Diagnostic where
  code : Code
  span : Span
  args : List String
  deriving DecidableEq, Repr

/-- The diagnostic of a finding in a region. -/
def Finding.inRegion (finding : Finding) (region : Region) : Diagnostic :=
  ⟨.ofViolation finding.kind region, finding.span, finding.args⟩

namespace Diagnostic

/-- How serious a diagnostic is, which its code says. -/
def severity (d : Diagnostic) : Severity := d.code.severity

/-- The message with its arguments filled in. -/
def message (d : Diagnostic) : String := d.code.template.fill d.args

/-- The line that a diagnostic is shown as. -/
def text (d : Diagnostic) : String :=
  d.severity.text ++ "[" ++ d.code.name ++ "]: " ++ d.message ++ " at line " ++ d.span.line.repr

end Diagnostic

/-- Diagnostics in the order they were reported. -/
structure Diagnostics where
  toList : List Diagnostic := []
  deriving DecidableEq, Repr, Inhabited

namespace Diagnostics

/-- Adds a diagnostic at the end. -/
def push (ds : Diagnostics) (d : Diagnostic) : Diagnostics := ⟨ds.toList ++ [d]⟩

/-- Adds the diagnostics of another list at the end. -/
def append (ds more : Diagnostics) : Diagnostics := ⟨ds.toList ++ more.toList⟩

/-- Diagnostics are put one after another. -/
instance : Append Diagnostics := ⟨append⟩

/-- How many diagnostics there are. -/
def size (ds : Diagnostics) : Nat := ds.toList.length

/-- Nothing was reported. -/
def isEmpty (ds : Diagnostics) : Bool := ds.toList.isEmpty

/-- The codes of the diagnostics, in the order of the reports. -/
def codes (ds : Diagnostics) : List Code := ds.toList.map (·.code)

/-- Some diagnostic is more than a warning. -/
def hasErrors (ds : Diagnostics) : Bool := ds.toList.any (·.severity == .error)

/-- One line per diagnostic, each ended by a line feed. -/
def render (ds : Diagnostics) : String := String.join (ds.toList.map fun d => d.text ++ "\n")

end Diagnostics

end RefLifetime
