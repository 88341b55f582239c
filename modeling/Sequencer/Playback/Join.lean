import Sequencer.Playback.Invoke

/-!
# Sequencer.Playback.Join

Fork and join over a range of a sequence's nodes. Everything is single threaded: the branches are
started, and later polled, one after another, so no two of them touch the cursor at once.

How a task is polled is a parameter here, so that what is said about joins holds for any way of
polling.
-/

namespace Sequencer

/-- A way of polling a task: nothing if the poll does not come to an end. -/
abbrev Poller (H : Host) := Task H → Context H → Option (Progress × Task H × Context H)

namespace Context

/-- Lets go of a task that is done. -/
def release {H : Host} (cx : Context H) (task : Task H) : Context H :=
  { cx with playback := cx.playback.abandon task.held }

end Context

namespace Join

variable {H : Host}

/-- Counts the outcome of an invoked branch, which has had its first poll if it left a task. -/
def settle (poll : Poller H) (join : Join (Task H)) (outcome : Option (Task H))
    (cx : Context H) : Option (Join (Task H) × Context H) :=
  let join := { join with started := join.started + 1 }
  match outcome with
  | none => some ({ join with completed := join.completed + 1 }, cx)
  | some task =>
    match poll task cx with
    | none => none
    | some (.done, task, cx) =>
      some ({ join with completed := join.completed + 1 }, cx.release task)
    | some (.pending, task, cx) =>
      some ({ join with branches := join.branches ++ [task] }, cx)

/-- Starts the branches of a list of positioned nodes, from position `next` on. The cursor is set to
a node's position before it is invoked, and the next branch starts behind the cursor: a node that
moves the cursor forward takes the nodes it passes out of the join. No branch starts once a stop is
requested. -/
def startFrom (poll : Poller H) (sequence : Sequence H) (nested : NestedId) :
    List (SequenceEntry H × Nat) → Nat → Join (Task H) → Context H →
      Option (Join (Task H) × Context H)
  | [], _, join, cx => some (join, cx)
  | (entry, position) :: rest, next, join, cx =>
    if position < next then startFrom poll sequence nested rest next join cx
    else if cx.stopRequested then some (join, cx)
    else
      let (outcome, cx) := (cx.moveTo position).invoke sequence nested position entry true
      match join.settle poll outcome cx with
      | none => none
      | some (join, cx) =>
        let next := max (cx.cursor.position?.getD position) position + 1
        startFrom poll sequence nested rest next join cx

/-- Starts every node from `first` up to `stop` within the current step. -/
def start (poll : Poller H) (sequence : Sequence H) (nested : NestedId) (first stop : Nat)
    (cx : Context H) : Option (Join (Task H) × Context H) :=
  let range := (sequence.nodes.zipIdx.drop first).take (stop - first)
  startFrom poll sequence nested range first {} cx

/-- Polls branches once each, in order; returns those that are still pending and the number of
those that are done. -/
def pollBranches (poll : Poller H) :
    List (Task H) → Context H → Option (List (Task H) × Nat × Context H)
  | [], cx => some ([], 0, cx)
  | task :: rest, cx =>
    match poll task cx with
    | none => none
    | some (progress, task, cx) =>
      let cx := if progress.isDone then cx.release task else cx
      match pollBranches poll rest cx with
      | none => none
      | some (pending, finished, cx) =>
        if progress.isDone then some (pending, finished + 1, cx)
        else some (task :: pending, finished, cx)

/-- Polls every pending branch once. -/
def poll (poll : Poller H) (join : Join (Task H)) (cx : Context H) :
    Option (Join (Task H) × Context H) :=
  match pollBranches poll join.branches cx with
  | none => none
  | some (branches, finished, cx) =>
    let join := { join with branches, completed := join.completed + finished }
    some (join, cx.record (.joinPolled join.completed join.started))

/-- Polls a join that is under way, or starts the nodes of a range. -/
def advance (poll : Poller H) (sequence : Sequence H) (nested : NestedId) (first stop : Nat)
    (join : Option (Join (Task H))) (cx : Context H) : Option (Join (Task H) × Context H) :=
  match join with
  | some join => join.poll poll cx
  | none => start poll sequence nested first stop cx

end Join

end Sequencer
