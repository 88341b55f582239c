import Sequencer.Player.Basic

/-!
# Sequencer.Player.Inspection

The form in which a player is shown for inspection: its sequence, its phase, the current index and
the time. What it shares with its nodes is left out.
-/

namespace Sequencer

/-- The form of a clock for inspection. -/
def Clock.inspected (c : Clock) : String :=
  "Clock \x7b delta: " ++ (BinaryNumber.ofFloat c.delta).detailed
    ++ ", elapsed: " ++ (BinaryNumber.ofFloat c.elapsed).detailed
    ++ ", frame: " ++ toString c.frame ++ " \x7d"

/-- The form of an index that may be absent. -/
def inspectedIndex : Option Int → String
  | none => "None"
  | some index => "Some(" ++ toString index ++ ")"

/-- The form of a player for inspection. -/
def Player.inspected {H : Host} (p : Player H) : String :=
  "SequencePlayer \x7b sequence: " ++ Text.inspected p.sequence.name ++ ", state: " ++ p.phase.name
    ++ ", current_index: " ++ inspectedIndex p.currentIndex
    ++ ", clock: " ++ p.playback.clock.inspected ++ ", .. \x7d"

end Sequencer
