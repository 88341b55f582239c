import Sequencer.Sequence

/-!
# Sequencer.Playback.Task

Suspended work as data. A node that does not finish when it is invoked leaves a task behind, which
is polled once in every step until it is done. Tasks own other tasks: a block owns the branches of
its join, and a nested sequence owns the run of its current pass.

Every task carries a ticket, its number in the order of launching, by which the history names it.
`Task.held` lists the unfinished tasks of a whole tree, the task itself included.
-/

namespace Sequencer

/-- A join over branches that run at the same time. -/
structure Join (τ : Type) where
  /-- The branches that are still pending, in the order in which they were started. -/
  branches : List τ := []
  /-- Branches started. -/
  started : Nat := 0
  /-- Branches completed. -/
  completed : Nat := 0

namespace Join

/-- Has every started branch completed? -/
def isDone {τ : Type} (j : Join τ) : Bool := j.completed == j.started

end Join

/-- How a run goes through its sequence. -/
inductive Mode (τ : Type)
  /-- Node after node; the task of the current node, if it is suspended. -/
  | sequential (current : Option τ)
  /-- All nodes at once; the join, once they are started. -/
  | parallel (join : Option (Join τ))

/-- One pass over a sequence. -/
structure Run (H : Host) (τ : Type) where
  /-- The sequence. -/
  sequence : Sequence H
  /-- The identity that its nodes are invoked with. -/
  nested : NestedId
  /-- The cursor of this pass. -/
  cursor : Cursor := .start
  /-- How far it has come. -/
  mode : Mode τ

/-- A parallel block over some of the nodes of a sequence. -/
structure Block (H : Host) (τ : Type) where
  /-- The sequence. -/
  sequence : Sequence H
  /-- The identity that the nodes are invoked with. -/
  nested : NestedId
  /-- Position of the first node. -/
  first : Nat
  /-- Position behind the last node. -/
  stop : Nat
  /-- The join, once the nodes are started. -/
  join : Option (Join τ) := none

/-- The passes of a nested sequence. -/
structure Passes (H : Host) (τ : Type) where
  /-- The nested sequence. -/
  sequence : Sequence H
  /-- The identity of the node that nests it. -/
  identity : NestedId
  /-- How many passes to run. -/
  loops : LoopCount
  /-- Passes completed. -/
  completed : Nat := 0
  /-- The current pass. -/
  run : Option (Run H τ) := none
  /-- Has the current pass been suspended in an earlier poll? -/
  suspended : Bool := false

/-- What a task waits for. -/
inductive Work (H : Host) (τ : Type)
  /-- A point in the player's time. -/
  | untilTime (deadline : Float)
  /-- A step of the player. -/
  | untilFrame (frame : Nat)
  /-- A value of a Boolean parameter. -/
  | untilParameter (name : String) (expected : Bool)
  /-- Work of the host. -/
  | hosted (work : H.Work)
  /-- The branches of a block. -/
  | block (block : Block H τ)
  /-- The passes of a nested sequence. -/
  | passes (passes : Passes H τ)

/-- A suspended unit of work. -/
structure Task (H : Host) where
  /-- Its number in the order of launching. -/
  ticket : Nat
  /-- Was it done when it was last polled? -/
  finished : Bool := false
  /-- What it waits for. -/
  work : Work H (Task H)

/-- One pass over a sequence, owning tasks. -/
abbrev SequenceRun (H : Host) := Run H (Task H)

namespace Run

/-- A pass over a sequence, before its first step. -/
def new {H : Host} {τ : Type} (sequence : Sequence H) (nested : NestedId) : Run H τ where
  sequence := sequence
  nested := nested
  mode := if sequence.parallel then .parallel none else .sequential none

end Run

/-- An unfinished task, as the history names it. -/
structure Held where
  /-- Its ticket. -/
  ticket : Nat
  /-- Is it work of the host? -/
  hosted : Bool
  deriving DecidableEq, Repr

/-- Is this work of the host? -/
def Work.isHosted {H : Host} {τ : Type} : Work H τ → Bool
  | .hosted _ => true
  | _ => false

mutual

/-- The unfinished tasks of a task tree. -/
def Task.held {H : Host} : Task H → List Held
  | ⟨ticket, finished, work⟩ =>
    (if finished then [] else [⟨ticket, work.isHosted⟩]) ++ heldByWork work
termination_by structural t => t

/-- The unfinished tasks that a piece of work owns. -/
def heldByWork {H : Host} : Work H (Task H) → List Held
  | .block ⟨_, _, _, _, some ⟨branches, _, _⟩⟩ => heldByBranches branches
  | .passes ⟨_, _, _, _, some ⟨_, _, _, .sequential (some task)⟩, _⟩ => task.held
  | .passes ⟨_, _, _, _, some ⟨_, _, _, .parallel (some ⟨branches, _, _⟩)⟩, _⟩ =>
    heldByBranches branches
  | _ => []
termination_by structural w => w

/-- The unfinished tasks of a list of branches. -/
def heldByBranches {H : Host} : List (Task H) → List Held
  | [] => []
  | task :: rest => task.held ++ heldByBranches rest
termination_by structural ts => ts

end

/-- The unfinished tasks of a join. -/
def Join.held {H : Host} (j : Join (Task H)) : List Held := heldByBranches j.branches

/-- The unfinished tasks of a run. -/
def Run.held {H : Host} (r : SequenceRun H) : List Held :=
  match r.mode with
  | .sequential (some task) => task.held
  | .parallel (some join) => join.held
  | _ => []

end Sequencer
