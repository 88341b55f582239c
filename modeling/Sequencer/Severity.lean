/-!
# Sequencer.Severity

How important a log line is.
-/

namespace Sequencer

/-- The importance of a log line, least important first. -/
inductive Severity
  /-- Step by step detail. -/
  | trace
  /-- Detail for development. -/
  | debug
  /-- What a user may want to follow. -/
  | info
  /-- Something looks wrong. -/
  | warn
  /-- Something failed. -/
  | error
  deriving DecidableEq, Repr, Inhabited

namespace Severity

/-- The tag in front of a log line. -/
def tag : Severity → String
  | trace => "TRACE"
  | debug => "DEBUG"
  | info => "INFO"
  | warn => "WARN"
  | error => "ERROR"

/-- Position on the scale. -/
def rank : Severity → Nat
  | trace => 0
  | debug => 1
  | info => 2
  | warn => 3
  | error => 4

/-- Does a log that is kept from `threshold` up hold this line? -/
def passes (s threshold : Severity) : Bool :=
  threshold.rank ≤ s.rank

end Severity

end Sequencer
