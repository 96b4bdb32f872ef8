import RefLifetime.Source

/-!
# Failures

A failure stops an analysis. Violations of the escape rules are diagnostics, not failures.
-/

namespace RefLifetime

/-- Why an analysis stopped. -/
inductive Failure where
  /-- A local is used before its declaration. -/
  | undeclaredLocal (name : String) (span : Span)
  /-- The receiver is used in a method that has none. -/
  | missingReceiver (method : String) (span : Span)
  /-- Statements or expressions are nested more deeply than `limit`. -/
  | depthExceeded (limit : Nat) (span : Span)
  deriving DecidableEq, Repr

namespace Failure

/-- The place that a failure is about. -/
def span : Failure → Span
  | undeclaredLocal _ span | missingReceiver _ span | depthExceeded _ span => span

/-- The wording of a failure. -/
def message : Failure → String
  | undeclaredLocal name _ => "Local '" ++ name ++ "' is used before its declaration was visited"
  | missingReceiver method _ => "'this' is used in '" ++ method ++ "', which has no receiver"
  | depthExceeded limit _ => "Nesting exceeds the analysis depth limit of " ++ limit.repr

end Failure

end RefLifetime
