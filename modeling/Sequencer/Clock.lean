/-!
# Sequencer.Clock

A player's time.

Steps are counted in 64 bits by the players that hosts run, and without a limit here. The two agree
for as long as a run has fewer than `2 ^ 64` steps.
-/

namespace Sequencer

/-- A player's time. -/
structure Clock where
  /-- Seconds covered by the current step. -/
  delta : Float := 0.0
  /-- Seconds since playback started. -/
  elapsed : Float := 0.0
  /-- Steps since playback started. -/
  frame : Nat := 0
  deriving DecidableEq, Inhabited

namespace Clock

/-- Playback has just started. -/
def zero : Clock := {}

/-- One step later. -/
def advance (c : Clock) (delta : Float) : Clock where
  delta := delta
  elapsed := c.elapsed + delta
  frame := c.frame + 1

end Clock

end Sequencer
