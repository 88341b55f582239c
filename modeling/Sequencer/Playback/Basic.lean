import Sequencer.Binding.Reconcile
import Sequencer.Playback.Task
import Sequencer.Player.Status

/-!
# Sequencer.Playback.Basic

A playback is what the nodes of one player share while they run, with the history of what happened.

* `Event`: one thing that happened, from the invocation of a node to the end of playback;
* `Playback`: parameters, bindings, clock, stop request and history;
* `Context`: a playback together with the cursor of the sequence that is running.

The history is kept newest first. Nothing that runs reads it.
-/

namespace Sequencer

/-- The invocation of one node. -/
structure Invocation (H : Host) where
  /-- The running sequence. -/
  sequence : Sequence H
  /-- The occurrence of it. -/
  nested : NestedId
  /-- The node's position. -/
  position : Nat
  /-- The node. -/
  entry : SequenceEntry H
  /-- Is it a branch of a join? -/
  parallel : Bool
  /-- The step it happens in. -/
  frame : Nat
  /-- The node's fields as the player resolves them. -/
  values : List Value

/-- One thing that happened. -/
inductive Event (H : Host)
  /-- A node is invoked. -/
  | invoked (invocation : Invocation H)
  /-- The invoked node left a task behind. -/
  | launched (ticket : Nat)
  /-- A task is polled. -/
  | polled (ticket : Nat)
  /-- A task reported that it is done. -/
  | completed (ticket : Nat)
  /-- An unfinished task was given up. -/
  | abandoned (task : Held)
  /-- The first stop request of a step. -/
  | stopRequested
  /-- A pass of a nested sequence begins. -/
  | passStarted (ticket : Nat)
  /-- A pass of a nested sequence ended. -/
  | passEnded (ticket : Nat) (sequence : String) (passes : Nat)
  /-- The branches of a join were polled. -/
  | joinPolled (completed started : Nat)
  /-- Host code wrote into the journal. -/
  | noted (note : H.Note)
  /-- The player tells its host that playback finished. -/
  | finished
  /-- The player tells its host that playback was stopped. -/
  | stopped (status : Status)
  /-- Something else worth a log line. -/
  | noticed (notice : Notice)

namespace Event

variable {H : Host}

/-- What the log shows of an event. -/
def notice? : Event H → Option Notice
  | invoked i => some (.invoking i.sequence.name i.position i.entry.label i.parallel)
  | passEnded _ sequence passes => some (.passDone sequence passes)
  | joinPolled done all => some (.joinPolled done all)
  | noticed notice => some notice
  | _ => none

end Event

/-- What the nodes of a player share. -/
structure Playback (H : Host) where
  /-- The named values. -/
  parameters : Parameters := .empty
  /-- The override bindings. -/
  bindings : Bindings := .empty
  /-- The player's time. -/
  clock : Clock := .zero
  /-- Has a node asked for a stop after this step? -/
  stopRequested : Bool := false
  /-- The ticket of the next task. -/
  nextTicket : Nat := 0
  /-- What happened, newest first. -/
  history : List (Event H) := []

namespace Playback

variable {H : Host}

/-- Adds an event. -/
def record (pb : Playback H) (e : Event H) : Playback H :=
  { pb with history := e :: pb.history }

/-- Adds an event for each unfinished task that is given up. -/
def abandon (pb : Playback H) (tasks : List Held) : Playback H :=
  tasks.foldl (fun pb task => pb.record (.abandoned task)) pb

/-- Adds what there is to log. -/
def notice (pb : Playback H) (notices : List Notice) : Playback H :=
  notices.foldl (fun pb n => pb.record (.noticed n)) pb

/-- Brings the bindings in line with a root sequence. -/
def reconcileBindings (pb : Playback H) (root : Sequence H) : BindingReport × Playback H :=
  let outcome := pb.bindings.reconcile root
  (outcome.report, { pb with bindings := outcome.bindings }.notice outcome.notices)

end Playback

/-- What a node or a task works on. -/
structure Context (H : Host) where
  /-- The cursor of the running sequence. -/
  cursor : Cursor
  /-- What the nodes of the player share. -/
  playback : Playback H

namespace Context

variable {H : Host}

/-- Adds an event. -/
def record (cx : Context H) (e : Event H) : Context H :=
  { cx with playback := cx.playback.record e }

/-- Has a stop been requested in this step? -/
def stopRequested (cx : Context H) : Bool := cx.playback.stopRequested

/-- Asks the player to stop at the end of this step. -/
def requestStop (cx : Context H) : Context H :=
  if cx.stopRequested then cx
  else { cx with playback := { cx.playback with stopRequested := true }.record .stopRequested }

/-- Moves the cursor forward. -/
def advance (cx : Context H) (count : Nat) : Context H :=
  { cx with cursor := cx.cursor.advance count }

/-- Moves the cursor back. -/
def rewind (cx : Context H) (count : Nat) : Context H :=
  { cx with cursor := cx.cursor.rewind count }

/-- Moves the cursor to an index. -/
def moveTo (cx : Context H) (index : Nat) : Context H :=
  { cx with cursor := cx.cursor.set index }

/-- Does a Boolean parameter have the expected value? One that is missing or of another kind reads
as false. -/
def parameterIs (cx : Context H) (name : String) (expected : Bool) : Bool :=
  cx.playback.parameters.getD Bool name == expected

/-- What host code gets to see. -/
def surroundings (cx : Context H) : Surroundings where
  cursor := cx.cursor
  parameters := cx.playback.parameters
  clock := cx.playback.clock
  stopRequested := cx.playback.stopRequested

/-- Takes over what host code did: where it moved the cursor, what it wrote into the parameters and
the journal, and whether it asked for a stop. -/
def absorb (cx : Context H) (r : Reaction H.Note) : Context H :=
  let playback := r.notes.foldl (fun pb note => pb.record (.noted note))
    { cx.playback with parameters := r.surroundings.parameters }
  let cx : Context H := ⟨r.surroundings.cursor, playback⟩
  if r.surroundings.stopRequested then cx.requestStop else cx

end Context

end Sequencer
