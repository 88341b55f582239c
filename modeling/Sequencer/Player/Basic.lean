import Sequencer.Player.Backlog
import Sequencer.Playback.Step
import Sequencer.Settings.Basic

/-!
# Sequencer.Player.Basic

A player runs one sequence with its own parameters, bindings and clock. Its host calls `play`,
`stop` and `restart`, and lets time pass with `tick` or `update`. Playback that ends on its own
leaves the player idle and tells the host that it finished; a stop, by the host or by a node, gives
up every suspended task, leaves the player stopped and tells the host so.

A step may not come to an end, so everything that steps takes a bound and has no answer if the
bound is too small.
-/

namespace Sequencer

/-- A player of one sequence. -/
structure Player (H : Host) where
  /-- The sequence. -/
  sequence : Sequence H
  /-- Where playback stands. -/
  phase : Phase := .idle
  /-- What the nodes share. -/
  playback : Playback H := {}
  /-- The run of the sequence, during playback. -/
  run : Option (SequenceRun H) := none
  /-- The settings. -/
  settings : Settings := {}
  /-- Host time that fixed steps have not consumed yet. -/
  backlog : Float := 0.0

namespace Player

variable {H : Host}

/-- Is playback running? -/
def isPlaying (p : Player H) : Bool := p.phase == .running

/-- The cursor of the outermost sequence, while there is a run. -/
def currentIndex (p : Player H) : Option Int := p.run.map (·.cursor.index)

/-- What the player shows of itself. -/
def status (p : Player H) : Status := ⟨p.phase, p.currentIndex, p.playback.clock⟩

/-- Adds an event to the history. -/
def record (p : Player H) (e : Event H) : Player H := { p with playback := p.playback.record e }

/-- Brings the bindings in line with the sequence. -/
def reconcileBindings (p : Player H) : BindingReport × Player H :=
  let (report, playback) := p.playback.reconcileBindings p.sequence
  (report, { p with playback })

/-- An idle player whose bindings are in line with its sequence. -/
def new (sequence : Sequence H) (settings : Settings := {}) : Player H :=
  (reconcileBindings { sequence, settings }).2

/-- Cancels playback. Every unfinished task is given up; without playback nothing happens. -/
def stop (p : Player H) : Player H :=
  if p.isPlaying then
    let held := (p.run.map Run.held).getD []
    let playback := { p.playback.abandon held with stopRequested := false }
    let p := { p with phase := .stopped, run := none, backlog := 0.0, playback }
    let p := p.record (.noticed (.stopped p.sequence.name))
    p.record (.stopped p.status)
  else p

/-- Ends playback that came to its end. -/
def finish (p : Player H) : Player H :=
  let held := (p.run.map Run.held).getD []
  let p := { p with phase := .idle, run := none, playback := p.playback.abandon held }
  let p := p.record (.noticed (.finished p.sequence.name (p.playback.clock.frame + 1)))
  p.record .finished

/-- Runs one step of the run, and ends playback if a node asked for it or the run is done. -/
def step (fuel : Nat) (p : Player H) : Option (Player H) :=
  match p.run with
  | none => some p
  | some run =>
    match run.step (Task.poll fuel) fuel p.playback with
    | none => none
    | some (progress, run, playback) =>
      let p := { p with run := some run, playback }
      if playback.stopRequested then
        some (p.record (.noticed (.stopRequested p.sequence.name))).stop
      else if progress.isDone then some p.finish
      else some p

/-- Starts playback, and runs the first step. During playback nothing happens. -/
def play (fuel : Nat) (p : Player H) : Option (Player H) :=
  if p.isPlaying then some p
  else
    let playback :=
      { p.playback with clock := .zero, stopRequested := false, nextTicket := 0 }
    let p := { p with
      playback
      backlog := 0.0
      run := some (.new p.sequence .root)
      phase := .running }
    (p.record (.noticed (.playing p.sequence.name))).step fuel

/-- Cancels playback and starts it again. -/
def restart (fuel : Nat) (p : Player H) : Option (Player H) :=
  (p.record (.noticed (.restarting p.sequence.name))).stop.play fuel

/-- Runs one step that covers `delta` seconds. Without playback nothing happens. -/
def tick (fuel : Nat) (delta : Float) (p : Player H) : Option (Player H) :=
  if p.isPlaying then
    { p with playback := { p.playback with clock := p.playback.clock.advance delta } }.step fuel
  else some p

/-- The player as something with a backlog of time. -/
def stepped (fuel : Nat) (timestep : Float) : Stepped (Player H) Float where
  running := isPlaying
  backlog := (·.backlog)
  withBacklog p backlog := { p with backlog }
  step := tick fuel timestep

/-- The timestep, if the settings ask for fixed steps. -/
def timestep? (p : Player H) : Option Float :=
  (p.settings.fixedTimestep.map (·.toFloat)).filter (0.0 < ·)

/-- Lets `delta` seconds of host time pass, scaled by the settings: in one step, or in as many fixed
steps as the time waited for makes up. Returns the number of steps. The limit on steps is looked at
after a step, so that one step runs even if the limit is zero. -/
def update (fuel : Nat) (delta : Float) (p : Player H) : Option (Nat × Player H) :=
  if p.isPlaying then
    let scaled := p.settings.scaledDelta delta
    match p.timestep? with
    | none => (p.tick fuel scaled).map (1, ·)
    | some timestep =>
      let allowed := max 1 p.settings.maxStepsPerUpdate.toNat
      let p := { p with backlog := p.backlog + scaled }
      match (stepped fuel timestep).drain timestep 0.0 0 allowed p with
      | none => none
      | some ⟨p, steps, none⟩ => some (steps, p)
      | some ⟨p, steps, some seconds⟩ =>
        some (steps, p.record (.noticed (.backlogDropped seconds)))
  else some (0, p)

/-- Plays another sequence from now on; playback is cancelled first. -/
def setSequence (p : Player H) (sequence : Sequence H) : Player H :=
  (reconcileBindings { p.stop with sequence }).2

/-- Replaces the bindings, and brings them in line with the sequence. -/
def setBindings (p : Player H) (bindings : Bindings) : BindingReport × Player H :=
  { p with playback := { p.playback with bindings } }.reconcileBindings

/-- Writes a parameter. -/
def setParameter (p : Player H) (name : String) (value : Value) : Player H :=
  { p with playback := { p.playback with parameters := p.playback.parameters.set name value } }

/-- Binds an override value and enables it. Returns the player in any case. -/
def setOverride (p : Player H) (o : Occurrence) (index : OverrideIndex) (value : Value) :
    Except BindingError Unit × Player H :=
  let (result, bindings) := p.playback.bindings.setOverride o index value
  (result, { p with playback := { p.playback with bindings } })

/-- Enables or disables an override. Returns the player in any case. -/
def setEnabled (p : Player H) (o : Occurrence) (index : OverrideIndex) (enabled : Bool) :
    Except BindingError Unit × Player H :=
  let (result, bindings) := p.playback.bindings.setEnabled o index enabled
  (result, { p with playback := { p.playback with bindings } })

end Player

end Sequencer
