import RefLifetime.Diagnostic.Violation

/-!
# Diagnostic codes

A code is a violation at a severity. Checked regions make every violation an error, unchecked ones
a warning. One further code is a warning by nature.
-/

namespace RefLifetime

/-- How serious a diagnostic is. -/
inductive Severity where
  | warning
  | error
  deriving DecidableEq, Repr

namespace Severity

/-- The name of a severity in messages. -/
def text : Severity → String
  | warning => "warning"
  | error => "error"

/-- Errors outweigh warnings. -/
def max : Severity → Severity → Severity
  | warning, warning => warning
  | _, _ => error

end Severity

/-- Whether violations are refused or only warned about. -/
inductive Region where
  | checked
  /-- The body of an unsafe block or method. -/
  | unchecked
  deriving DecidableEq, Repr, Inhabited

namespace Region

/-- The region of a method or block, given whether it is unsafe. -/
def ofUnsafe (isUnsafe : Bool) : Region := if isUnsafe then unchecked else checked

/-- A region inside another: once unchecked, always unchecked. -/
def within (inner outer : Region) : Region :=
  match outer with
  | checked => inner
  | unchecked => unchecked

/-- A checked region is as checked as what is around it. -/
theorem checked_within (region : Region) : checked.within region = region := by
  cases region <;> rfl

/-- An unchecked region is unchecked wherever it stands. -/
theorem unchecked_within (region : Region) : unchecked.within region = unchecked := by
  cases region <;> rfl

/-- The severity of a violation in this region. -/
def severity : Region → Severity
  | checked => .error
  | unchecked => .warning

end Region

/-- What a diagnostic is about and how serious it is. -/
inductive Code where
  | violation (kind : Violation) (severity : Severity)
  /-- A returned ref struct may capture a reference parameter; always a warning. -/
  | mayCaptureRefParameter
  deriving DecidableEq, Repr

namespace Code

/-- All codes, in the order that listings follow. -/
def all : List Code :=
  Violation.all.flatMap (fun kind => [violation kind .error, violation kind .warning]) ++
    [mayCaptureRefParameter]

/-- The name of a code. -/
def name : Code → String
  | violation kind .error => "Err" ++ kind.name
  | violation kind .warning => "Wrn" ++ kind.name
  | mayCaptureRefParameter => "WrnRefStructMayCaptureRefParameter"

/-- The code of a given name. -/
def ofName? (name : String) : Option Code := all.find? (·.name == name)

/-- How serious it is when this code is reported. -/
def severity : Code → Severity
  | violation _ severity => severity
  | mayCaptureRefParameter => .warning

/-- The form that a code takes in a region: errors become warnings in unchecked ones. -/
def inRegion (code : Code) (region : Region) : Code :=
  match code, region with
  | violation kind .error, .unchecked => violation kind .warning
  | code, _ => code

/-- The code of a violation found in a region. -/
def ofViolation (kind : Violation) (region : Region) : Code := violation kind region.severity

/-- The code of a violation is the region's form of its error. -/
theorem ofViolation_eq_inRegion (kind : Violation) (region : Region) :
    ofViolation kind region = (violation kind .error).inRegion region := by
  cases region <;> rfl

/-- The position of a code in listings. -/
def rank (code : Code) : Nat := all.idxOf code

/-- Every code is listed. -/
theorem mem_all (code : Code) : code ∈ all := by
  rcases code with ⟨kind, severity⟩ | _
  · cases kind <;> cases severity <;> decide
  · decide

/-- The greatest severity among the codes, if there are any. -/
def worst? : List Code → Option Severity
  | [] => none
  | code :: rest => some (rest.foldl (fun worst c => worst.max c.severity) code.severity)

end Code

end RefLifetime
