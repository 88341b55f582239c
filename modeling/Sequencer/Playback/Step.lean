import Sequencer.Playback.Join

/-!
# Sequencer.Playback.Step

Stepping a run and polling a task.

A sequential run invokes nodes until one suspends, polls that task in every later step until it is
done, and goes on behind the cursor. A parallel run starts all its nodes in its first step and joins
them. A nested sequence runs pass after pass within one poll; a loop without end yields after a pass
that never suspended, so that it cannot fill a step forever.

A sequence may go back for ever within one step, so that not every step ends. `Task.poll` takes a
bound on the depth of tasks and on the length of every loop, and has no answer if the bound is too
small; a larger bound never changes an answer.
-/

namespace Sequencer

/-- Tolerance for accumulated step times. -/
def timeTolerance : Float := 1e-6

namespace Run

variable {H : Host}

/-- Goes on through a sequence in list order from the cursor, until a node suspends, a stop is
requested or the cursor leaves the list. -/
def walk (poll : Poller H) (sequence : Sequence H) (nested : NestedId) :
    Nat → Context H → Option (Progress × Option (Task H) × Context H)
  | 0, _ => none
  | fuel + 1, cx =>
    if cx.stopRequested then some (.pending, none, cx)
    else
      match cx.cursor.position?.bind fun i => sequence.nodes[i]?.map (i, ·) with
      | none => some (.done, none, cx)
      | some (position, entry) =>
        match cx.invoke sequence nested position entry false with
        | (none, cx) => walk poll sequence nested fuel (cx.advance 1)
        | (some task, cx) =>
          match poll task cx with
          | none => none
          | some (.pending, task, cx) => some (.pending, some task, cx)
          | some (.done, task, cx) =>
            walk poll sequence nested fuel ((cx.release task).advance 1)

/-- Polls the suspended node of a sequential run, if there is one, and goes on when it is done. -/
def resume (poll : Poller H) (fuel : Nat) (sequence : Sequence H) (nested : NestedId)
    (current : Option (Task H)) (cx : Context H) :
    Option (Progress × Option (Task H) × Context H) :=
  match current with
  | none => walk poll sequence nested fuel cx
  | some task =>
    match poll task cx with
    | none => none
    | some (.pending, task, cx) => some (.pending, some task, cx)
    | some (.done, task, cx) => walk poll sequence nested fuel ((cx.release task).advance 1)

/-- Runs one step of a pass, on its own cursor. -/
def step (poll : Poller H) (fuel : Nat) (run : SequenceRun H) (playback : Playback H) :
    Option (Progress × SequenceRun H × Playback H) :=
  let cx : Context H := ⟨run.cursor, playback⟩
  match run.mode with
  | .sequential current =>
    match resume poll fuel run.sequence run.nested current cx with
    | none => none
    | some (progress, current, cx) =>
      some (progress, { run with cursor := cx.cursor, mode := .sequential current }, cx.playback)
  | .parallel join =>
    match Join.advance poll run.sequence run.nested 0 run.sequence.length join cx with
    | none => none
    | some (join, cx) =>
      let cx := if join.isDone then cx.moveTo run.sequence.length else cx
      some (.doneIf join.isDone,
        { run with cursor := cx.cursor, mode := .parallel (some join) }, cx.playback)

end Run

namespace Block

variable {H : Host}

/-- Polls a block. When its join is done the cursor moves to the last node, behind which the
sequence goes on. -/
def poll (poll : Poller H) (block : Block H (Task H)) (cx : Context H) :
    Option (Progress × Block H (Task H) × Context H) :=
  match Join.advance poll block.sequence block.nested block.first block.stop block.join cx with
  | none => none
  | some (join, cx) =>
    some (.doneIf join.isDone, { block with join := some join },
      if join.isDone then cx.moveTo (block.stop - 1) else cx)

end Block

namespace Passes

variable {H : Host}

/-- The highest number of passes that is counted. -/
def maxCompleted : Nat := 4294967295

/-- What follows a completed pass: the end, a pause until the next poll, or the next pass. -/
inductive Continuation
  /-- All passes are done. -/
  | finish
  /-- The next pass waits for the next poll. -/
  | yield
  /-- The next pass starts at once. -/
  | again
  deriving DecidableEq

/-- Decides what follows a completed pass. -/
def continuation (loops : LoopCount) (completed : Nat) (suspended : Bool) : Continuation :=
  match loops with
  | .times count _ => if count ≤ completed then .finish else .again
  | .forever => if suspended then .again else .yield

/-- Runs passes until one suspends, the loop yields or the last pass is done. -/
def poll (poll : Poller H) (fuel : Nat) (ticket : Nat) :
    Nat → Passes H (Task H) → Playback H → Option (Progress × Passes H (Task H) × Playback H)
  | 0, _, _ => none
  | left + 1, p, playback =>
    let (run, suspended, playback) :=
      match p.run with
      | some run => (run, p.suspended, playback)
      | none => (.new p.sequence p.identity, false, playback.record (.passStarted ticket))
    match run.step poll fuel playback with
    | none => none
    | some (.pending, run, playback) =>
      some (.pending, { p with run := some run, suspended := true }, playback)
    | some (.done, run, playback) =>
      let completed := min (p.completed + 1) maxCompleted
      let playback := (playback.abandon run.held).record
        (.passEnded ticket p.sequence.name completed)
      let p := { p with run := none, suspended, completed }
      match continuation p.loops completed suspended with
      | .finish => some (.done, p, playback)
      | .yield => some (.pending, p, playback)
      | .again => Passes.poll poll fuel ticket left p playback

end Passes

namespace Task

variable {H : Host}

/-- Advances the work of a task, given how the tasks below it are polled. -/
def advance (poll : Poller H) (fuel ticket : Nat) (work : Work H (Task H)) (cx : Context H) :
    Option (Progress × Work H (Task H) × Context H) :=
  match work with
  | .untilTime deadline =>
    some (.doneIf (deadline ≤ cx.playback.clock.elapsed + timeTolerance), work, cx)
  | .untilFrame frame => some (.doneIf (frame ≤ cx.playback.clock.frame), work, cx)
  | .untilParameter name expected => some (.doneIf (cx.parameterIs name expected), work, cx)
  | .hosted w =>
    let (reaction, progress, w) := H.poll w cx.surroundings
    some (progress, .hosted w, cx.absorb reaction)
  | .block block =>
    match block.poll poll cx with
    | none => none
    | some (progress, block, cx) => some (progress, .block block, cx)
  | .passes passes =>
    match passes.poll poll fuel ticket fuel cx.playback with
    | none => none
    | some (progress, passes, playback) => some (progress, .passes passes, { cx with playback })

/-- Polls a task once, given how the tasks below it are polled. -/
def pollWith (poll : Poller H) (fuel : Nat) (task : Task H) (cx : Context H) :
    Option (Progress × Task H × Context H) :=
  match advance poll fuel task.ticket task.work (cx.record (.polled task.ticket)) with
  | none => none
  | some (.pending, work, cx) => some (.pending, { task with finished := false, work }, cx)
  | some (.done, work, cx) =>
    some (.done, { task with finished := true, work }, cx.record (.completed task.ticket))

/-- Polls a task once, within a bound. -/
def poll : Nat → Poller H
  | 0 => fun _ _ => none
  | fuel + 1 => pollWith (poll fuel) fuel

end Task

end Sequencer
