import Sequencer.Clock

/-!
# Sequencer.Player.Status

What a player shows of itself.
-/

namespace Sequencer

/-- Where playback stands. -/
inductive Phase
  /-- Not started, or finished on its own. -/
  | idle
  /-- Running. -/
  | running
  /-- Cancelled by a stop. -/
  | stopped
  deriving DecidableEq, Repr, Inhabited

namespace Phase

/-- The name of a phase. -/
def name : Phase → String
  | idle => "Idle"
  | running => "Running"
  | stopped => "Stopped"

end Phase

/-- What a player shows at one moment. -/
structure Status where
  /-- Where playback stands. -/
  phase : Phase
  /-- The cursor of the outermost sequence, while there is a run. -/
  index : Option Int
  /-- The player's time. -/
  clock : Clock

namespace Status

/-- Is playback running? -/
def isPlaying (s : Status) : Bool := s.phase == .running

end Status

end Sequencer
