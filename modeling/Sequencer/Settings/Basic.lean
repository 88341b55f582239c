import Sequencer.Number.Text

/-!
# Sequencer.Settings.Basic

How a player turns its host's frame time into steps.
-/

namespace Sequencer

/-- Settings of a player. -/
structure Settings where
  /-- The version of the format. -/
  version : UInt32 := 1
  /-- What host time is multiplied by, once cut to the range from 0 to 10. -/
  timeScale : Single := 1.0
  /-- The length of a step in seconds; without one, each update is one step. -/
  fixedTimestep : Option Double := none
  /-- The most fixed steps that one update runs. -/
  maxStepsPerUpdate : UInt32 := 8
  deriving DecidableEq

namespace Settings

/-- The current version of the format. -/
def currentVersion : UInt32 := 1

/-- The highest time scale. -/
def maxTimeScale : Single := 10.0

/-- Settings that step at a fixed rate. -/
def stepping (timestep : Double) : Settings := { fixedTimestep := some timestep }

/-- Cuts a scale to the range from 0 to 10. A NaN stays. -/
def clampScale (x : Single) : Single :=
  if x.toFloat32 < 0.0 then 0.0
  else if maxTimeScale.toFloat32 < x.toFloat32 then maxTimeScale
  else x

/-- Sets the time scale, cut to its range. -/
def withTimeScale (s : Settings) (scale : Single) : Settings :=
  { s with timeScale := clampScale scale }

/-- Host time, scaled. -/
def scaledDelta (s : Settings) (delta : Float) : Float :=
  delta * (clampScale s.timeScale).widen.toFloat

/-- Equality as numbers have it. -/
protected def beq (s t : Settings) : Bool :=
  s.version == t.version && s.timeScale == t.timeScale && s.fixedTimestep == t.fixedTimestep
    && s.maxStepsPerUpdate == t.maxStepsPerUpdate

instance : BEq Settings := ⟨Settings.beq⟩

end Settings

end Sequencer
