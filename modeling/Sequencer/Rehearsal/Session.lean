import Sequencer.Binding.Ron
import Sequencer.Catalog
import Sequencer.Player.Basic
import Sequencer.Rehearsal.StandIn
import Sequencer.Ron.Standard
import Sequencer.Settings.Ron

/-!
# Sequencer.Rehearsal.Session

A session of a rehearsal: sequences, players and everything else by name, and a record of what
happens to them.

* `Session`: the objects by name, and what has not taken effect yet;
* `Record`: the journal, the reports and the number of suspended stand-ins that were given up;
* `Step`: one step of a session, which may be refused. What it did before that stays done.
-/

namespace Sequencer.Rehearsal

/-! ### Names -/

/-- Objects by name. -/
abbrev Named (α : Type) := List (String × α)

namespace Named

/-- The objects with one more, in the place of one that has its name. -/
def put {α : Type} (objects : Named α) (name : String) (a : α) : Named α :=
  (name, a) :: objects.filter (·.1 != name)

/-- The objects without one. -/
def erase {α : Type} (objects : Named α) (name : String) : Named α :=
  objects.filter (·.1 != name)

end Named

/-! ### The session -/

/-- Why a step was refused. -/
inductive Refusal
  /-- A sequence refused an edit. -/
  | sequence (e : SequenceError)
  /-- Bindings refused an edit, or could not be written or read. -/
  | binding (e : BindingError)
  /-- Settings could not be written or read. -/
  | settings (e : SettingsError)
  /-- A shared sequence is not edited. -/
  | frozen
  /-- Nothing has the given name. -/
  | noObject
  /-- A step of a player does not come to an end. -/
  | endless

/-- An entry of the session's journal. -/
inductive JournalEntry
  /-- A stand-in wrote a note. -/
  | note (n : Note)
  /-- A player finished. -/
  | finish (player : String)
  /-- A player was stopped. -/
  | stop (player : String) (status : Status)

/-- A sequence of the session. -/
structure Draft where
  /-- The sequence. -/
  sequence : Sequence stage
  /-- Is it played or nested already? -/
  shared : Bool := false

/-- A change of a probe's fields, which takes effect when it next declares them. -/
structure FieldChange where
  /-- The numbers of the fields that it does not declare from now on. -/
  hide : Option (List Nat) := none
  /-- New template values, by the number of the field. -/
  values : List (Nat × Value) := []

/-- What happened during a step. -/
structure Record where
  /-- The journal, in order. -/
  journal : List JournalEntry := []
  /-- The reports, in order. -/
  notices : List Notice := []
  /-- How many suspended stand-ins were given up. -/
  cancelled : Nat := 0

/-- The log lines of a record, from a severity up; without one nothing is logged. -/
def Record.lines (r : Record) (threshold : Option Severity) : List String :=
  match threshold with
  | none => []
  | some threshold => (r.notices.filter (·.severity.passes threshold)).map Notice.line

/-- A session of a rehearsal. -/
structure Session where
  /-- Sequences. -/
  sequences : Named Draft := []
  /-- Players. -/
  players : Named (Player stage) := []
  /-- Bindings outside of players. -/
  bindings : Named Bindings := []
  /-- Parameters outside of players. -/
  parameters : Named Parameters := []
  /-- Settings. -/
  settings : Named Settings := []
  /-- Playbacks outside of players. -/
  playbacks : Named (Playback stage) := []
  /-- Cursors. -/
  cursors : Named Cursor := []
  /-- Runs outside of players. -/
  runs : Named (SequenceRun stage) := []
  /-- Joins outside of runs. -/
  joins : Named (Join (Task stage)) := []
  /-- Tasks outside of runs. -/
  tasks : Named (Task stage) := []
  /-- Catalogs. -/
  catalogs : Named (Catalog stage) := []
  /-- How many sequences were made. -/
  sequencesMade : Nat := 0
  /-- How many nodes were added. -/
  nodesAdded : Nat := 0
  /-- How many identities were given out. -/
  idsMade : Nat := 0
  /-- The handles of nodes, the last one first. -/
  handles : List (String × NodeId) := []
  /-- Changes of probes that have not taken effect yet, in order. -/
  changes : List (NodeId × FieldChange) := []
  /-- What happened in the current step. -/
  record : Record := {}

/-- A step of a session. What it did before it is refused stays done. -/
abbrev Step := ExceptT Refusal (StateM Session)

namespace Step

/-- How far a step of a player may go before it counts as endless. -/
def budget : Nat := 1000000000

/-- An object, or the refusal for a name that nothing has. -/
def orNoObject {α : Type} : Option α → Step α
  | some a => pure a
  | none => throw .noObject

/-- The outcome of stepping a player. -/
def orEndless {α : Type} : Option α → Step α
  | some a => pure a
  | none => throw .endless

/-- The outcome of an edit, or its refusal. -/
def orRefused {ε α : Type} (refusal : ε → Refusal) : Except ε α → Step α
  | .ok a => pure a
  | .error e => throw (refusal e)

/-- Changes the record of the step. -/
def modifyRecord (f : Record → Record) : Step Unit :=
  modify fun s => { s with record := f s.record }

/-- Records reports. -/
def report (notices : List Notice) : Step Unit :=
  modifyRecord fun r => { r with notices := r.notices ++ notices }

/-- Records that unfinished tasks were given up. -/
def giveUp (held : List Held) : Step Unit :=
  modifyRecord fun r => { r with cancelled := r.cancelled + held.countP (·.hosted) }

/-- What the journal shows of an event, given whose event it is. -/
def journaled? (player : String) : Event stage → Option JournalEntry
  | .noted n => some (.note n)
  | .finished => some (.finish player)
  | .stopped status => some (.stop player status)
  | _ => none

/-- The tasks that an event gives up. -/
def heldOf : Event stage → List Held
  | .abandoned held => [held]
  | _ => []

/-- Moves the history of a playback into the record. -/
def drain (player : String) (pb : Playback stage) : Step (Playback stage) := do
  let events := pb.history.reverse
  modifyRecord fun r =>
    { journal := r.journal ++ events.filterMap (journaled? player)
      notices := r.notices ++ events.filterMap Event.notice?
      cancelled := r.cancelled + (events.flatMap heldOf).countP (·.hosted) }
  return { pb with history := [] }

/-- A new identity. -/
def freshUuid : Step Uuid := do
  let n := (← get).idsMade
  modify ({ · with idsMade := n + 1 })
  return .ofNat (0xFFFFFFFFFFFF4FFFBFFF000000000000 + n)

end Step

end Sequencer.Rehearsal
