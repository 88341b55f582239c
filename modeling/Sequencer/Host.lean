import Sequencer.Cursor
import Sequencer.Clock
import Sequencer.Parameters

/-!
# Sequencer.Host

What a host adds to the built-in nodes.

A host supplies a type of node behaviours, a type of suspended work and a type of notes, and says
what an invocation and a poll do. Host code works on `Surroundings`, the part of the player it may
touch: it can move the cursor of its sequence, change the parameters and ask for a stop. It cannot
take a stop request back, turn the clock or edit the bindings, because the player takes only the
cursor, the parameters and a new stop request from what host code returns.

Two things that a host may do are left out. The fields of a node are resolved when it is invoked,
and come with the `Call`; host code cannot resolve a field again, neither then nor in a poll. And
host code cannot run a sequence of its own inside of a task: the sequences that a player runs are
those of its nodes.
-/

namespace Sequencer

/-- Does a task go on? -/
inductive Progress
  /-- Still running, to be polled again in the next step. -/
  | pending
  /-- Finished. -/
  | done
  deriving DecidableEq, Repr, Inhabited

namespace Progress

/-- Done if the condition holds. -/
def doneIf (condition : Bool) : Progress := if condition then done else pending

/-- Is the task finished? -/
def isDone : Progress → Bool
  | pending => false
  | done => true

end Progress

/-- What host code sees of the player that runs it, which is not the bindings. -/
structure Surroundings where
  /-- The cursor of the running sequence. -/
  cursor : Cursor
  /-- The player's parameters. -/
  parameters : Parameters
  /-- The player's time. -/
  clock : Clock
  /-- Has a stop been requested in this step? -/
  stopRequested : Bool

/-- How a host node is invoked. -/
structure Call where
  /-- The running sequence. -/
  sequence : SequenceId
  /-- The occurrence of it. -/
  nested : NestedId
  /-- The node's fields as the player resolves them, declared or not. -/
  values : List Value

/-- What host code did. -/
structure Reaction (note : Type) where
  /-- The surroundings afterwards. -/
  surroundings : Surroundings
  /-- What it wrote into the journal, in order. -/
  notes : List note := []

/-- The node behaviours of a host. -/
structure Host where
  /-- What distinguishes one host node from another. -/
  Behavior : Type
  /-- A suspended piece of host work. -/
  Work : Type
  /-- What host code writes into the journal. -/
  Note : Type
  /-- Runs a node; without work the node is finished. -/
  invoke : Behavior → Call → Surroundings → Reaction Note × Option Work
  /-- Advances a piece of work by one step. -/
  poll : Work → Surroundings → Reaction Note × Progress × Work

/-- The host without nodes of its own. -/
def Host.none : Host where
  Behavior := Empty
  Work := Empty
  Note := Empty
  invoke b := b.elim
  poll w := w.elim

end Sequencer
