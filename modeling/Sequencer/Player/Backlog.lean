/-!
# Sequencer.Player.Backlog

Stepping through a backlog of time in steps of a fixed length. The time may be of any ordered type
with a subtraction, and the thing that is stepped may change its own backlog, as a player that is
stopped forgets it.
-/

namespace Sequencer

/-- Something with a backlog of time, stepped while it is running. -/
structure Stepped (σ τ : Type) where
  /-- Does it take steps? -/
  running : σ → Bool
  /-- The time not stepped through yet. -/
  backlog : σ → τ
  /-- With another backlog. -/
  withBacklog : σ → τ → σ
  /-- One step; nothing if the step does not come to an end. -/
  step : σ → Option σ

/-- The outcome of stepping through a backlog. -/
structure Drained (σ τ : Type) where
  /-- What was stepped, afterwards. -/
  state : σ
  /-- The number of steps taken. -/
  steps : Nat
  /-- The backlog that was given up, if the steps ran out. -/
  dropped : Option τ

namespace Stepped

variable {σ τ : Type} [LE τ] [DecidableLE τ] [Sub τ]

/-- Takes a step for each timestep in the backlog, up to `allowed` steps. When they are used up, the
rest of the backlog is given up and `zero` takes its place. -/
def drain (m : Stepped σ τ) (timestep zero : τ) (steps : Nat) : Nat → σ → Option (Drained σ τ)
  | 0, state => some ⟨m.withBacklog state zero, steps, some (m.backlog state)⟩
  | allowed + 1, state =>
    if timestep ≤ m.backlog state ∧ m.running state then
      match m.step (m.withBacklog state (m.backlog state - timestep)) with
      | none => none
      | some state => m.drain timestep zero (steps + 1) allowed state
    else some ⟨state, steps, none⟩

end Stepped

end Sequencer
