import Sequencer.Rehearsal.Playing

/-!
# Sequencer.Rehearsal.Parts

The parts of a player one by one: runs, joins and tasks that are stepped by hand, each on a playback
and, where it needs one, a cursor of the session.
-/

namespace Sequencer.Rehearsal.Step

/-- A cursor of the session; one that nobody moved stands at the first node. -/
def cursor (name : String) : Step Cursor := do
  return ((← get).cursors.lookup name).getD .start

/-- Takes over a cursor. -/
def putCursor (name : String) (c : Cursor) : Step Unit :=
  modify fun s => { s with cursors := s.cursors.put name c }

/-- Takes over a context: the cursor and the playback under their names. -/
def putContext (cursor playback : String) (cx : Context stage) : Step (Context stage) := do
  putCursor cursor cx.cursor
  return { cx with playback := ← putPlayback playback cx.playback }

/-- The context of a cursor and a playback. -/
def context (cursorName playbackName : String) : Step (Context stage) := do
  let pb ← playback playbackName
  return ⟨← cursor cursorName, pb⟩

/-- How tasks are polled. -/
def poller : Poller stage := Task.poll budget

/-- A run of the session. -/
def run (name : String) : Step (SequenceRun stage) := do
  orNoObject ((← get).runs.lookup name)

/-- Forgets a run, if there is one, and what it still holds. -/
def forgetRun (name : String) : Step Unit := do
  if let some run := (← get).runs.lookup name then
    giveUp run.held
    modify fun s => { s with runs := s.runs.erase name }

/-- Gives up a run. -/
def dropRun (name : String) : Step Unit := do
  let _ ← run name
  forgetRun name

/-- Makes a run. -/
def newRun (name sequence : String) (nested : NestedId) : Step (SequenceRun stage) := do
  let s ← share sequence
  forgetRun name
  let run : SequenceRun stage := .new s nested
  modify fun s => { s with runs := s.runs.put name run }
  return run

/-- Steps a run. -/
def driveRun (name playbackName : String) :
    Step (Progress × SequenceRun stage × Playback stage) := do
  let r ← run name
  let pb ← playback playbackName
  let (progress, r, pb) ← orEndless (r.step poller budget pb)
  modify fun s => { s with runs := s.runs.put name r }
  return (progress, r, ← putPlayback playbackName pb)

/-- Steps a run as a part of what goes on under another cursor. A run has a cursor of its own, so
the other one stays where it is. -/
def pollRun (name cursorName playbackName : String) :
    Step (Progress × SequenceRun stage × Cursor) := do
  let outer ← cursor cursorName
  let (progress, r, _) ← driveRun name playbackName
  return (progress, r, outer)

/-- Starts a join over a range of a sequence. -/
def startJoin (name sequence : String) (nested : NestedId) (first stop : Nat)
    (cursorName playbackName : String) : Step (Join (Task stage) × Context stage) := do
  let s ← share sequence
  let cx ← context cursorName playbackName
  let (join, cx) ← orEndless (Join.start poller s nested first stop cx)
  if let some old := (← get).joins.lookup name then giveUp old.held
  modify fun s => { s with joins := s.joins.put name join }
  return (join, ← putContext cursorName playbackName cx)

/-- Polls a join. -/
def pollJoin (name cursorName playbackName : String) :
    Step (Join (Task stage) × Context stage) := do
  let join ← orNoObject ((← get).joins.lookup name)
  let cx ← context cursorName playbackName
  let (join, cx) ← orEndless (join.poll poller cx)
  modify fun s => { s with joins := s.joins.put name join }
  return (join, ← putContext cursorName playbackName cx)

/-- Gives up a task, if there is one. -/
def dropTask (name : String) : Step Unit := do
  if let some task := (← get).tasks.lookup name then
    giveUp task.held
    modify fun s => { s with tasks := s.tasks.erase name }

/-- Lets the node at a position of a sequence do its work by itself. The task that it leaves takes
the place of the one that has its name; a node that leaves none changes nothing there. -/
def performNode (name sequence : String) (position : Nat) (nested : NestedId)
    (cursorName playbackName : String) : Step (Bool × Context stage) := do
  let s ← share sequence
  let cx ← context cursorName playbackName
  let entry ← orNoObject s.nodes[position]?
  let (task, cx) := cx.perform s nested entry.node
  if let some task := task then
    dropTask name
    modify fun s => { s with tasks := s.tasks.put name task }
  return (task.isSome, ← putContext cursorName playbackName cx)

/-- Polls a task. -/
def pollTask (name cursorName playbackName : String) : Step (Progress × Context stage) := do
  let task ← orNoObject ((← get).tasks.lookup name)
  let cx ← context cursorName playbackName
  let (progress, task, cx) ← orEndless (poller task cx)
  modify fun s => { s with tasks := s.tasks.put name task }
  return (progress, ← putContext cursorName playbackName cx)

end Sequencer.Rehearsal.Step
