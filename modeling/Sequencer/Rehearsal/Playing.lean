import Sequencer.Rehearsal.Authoring

/-!
# Sequencer.Rehearsal.Playing

Players in a session, and what they are given: settings, parameters and bindings. Parameters and
bindings may also belong to a playback without a player, or stand alone.

Whatever changes a player ends with `putPlayer`, which moves the player's history into the record.
-/

namespace Sequencer.Rehearsal.Step

/-! ### Settings -/

/-- Settings of the session. -/
def settingsNamed (name : String) : Step Settings := do
  orNoObject ((← get).settings.lookup name)

/-- Takes over settings. -/
def putSettings (name : String) (settings : Settings) : Step Settings := do
  modify fun s => { s with settings := s.settings.put name settings }
  return settings

/-- Makes settings out of their written form. -/
def readSettings (name text : String) : Step Settings := do
  putSettings name (← orRefused .settings (Settings.ofRon Ron.standard text))

/-- The written form of settings of the session, and what it is read as. -/
def writtenSettings (name : String) : Step (Settings × String × Option Settings) := do
  let s ← settingsNamed name
  let text ← orRefused .settings (s.toRon Ron.standard)
  return (s, text, (Settings.ofRon Ron.standard text).toOption)

/-- Reads a settings file. -/
def loadSettings (path : String) (file : Settings.File) : Step Settings := do
  let (settings, notices) ← orRefused .settings (Settings.load Ron.standard path file)
  report notices
  return settings

/-- Writes settings to a file and reads it again. -/
def saveAndLoad (path : String) (settings : Settings) : Step Settings := do
  let (file, notices) ← orRefused .settings (settings.save Ron.standard path)
  report notices
  loadSettings path file

/-! ### Players -/

/-- A player of the session. -/
def player (name : String) : Step (Player stage) := do
  orNoObject ((← get).players.lookup name)

/-- Takes over a player, and what happened to it. -/
def putPlayer (name : String) (p : Player stage) : Step (Player stage) := do
  let p := { p with playback := ← drain name p.playback }
  modify fun s => { s with players := s.players.put name p }
  return p

/-- Forgets a player, if there is one, and what it still holds. -/
def forgetPlayer (name : String) : Step Unit := do
  if let some p := (← get).players.lookup name then
    giveUp ((p.run.map Run.held).getD [])
    modify fun s => { s with players := s.players.erase name }

/-- Gives up a player. -/
def dropPlayer (name : String) : Step Unit := do
  let _ ← player name
  forgetPlayer name

/-- Makes a player. It is there, its bindings reconciled, before its settings are looked up; but it
takes over the name only once it has them. -/
def newPlayer (name sequence : String) (settings : Option String) : Step (Player stage) := do
  let p : Player stage := .new (← share sequence) {}
  let p := { p with playback := ← drain name p.playback }
  let settings ← match settings with
    | none => pure {}
    | some name => settingsNamed name
  forgetPlayer name
  putPlayer name { p with settings }

/-- Does something to a player that may not come to an end. -/
def withPlayer (name : String) (act : Player stage → Option (Player stage)) :
    Step (Player stage) := do
  putPlayer name (← orEndless (act (← player name)))

/-- Lets host time pass so many times; returns the steps of each time. -/
def updatePlayer (name : String) (delta : Float) (times : Nat) :
    Step (List Nat × Player stage) := do
  let mut p ← player name
  let mut steps := #[]
  for _ in [0:times] do
    let (n, q) ← orEndless (p.update budget delta)
    steps := steps.push n
    p := q
  return (steps.toList, ← putPlayer name p)

/-- Lets a player take so many steps. -/
def tickPlayer (name : String) (delta : Float) (times : Nat) : Step (Player stage) :=
  withPlayer name fun p =>
    (List.range times).foldlM (fun p _ => p.tick budget delta) p

/-- Gives a player another sequence. -/
def setSequence (name sequence : String) : Step (Player stage) := do
  let p ← player name
  let s ← share sequence
  putPlayer name (p.setSequence s)

/-- Gives a player settings of the session. -/
def setSettings (name settings : String) : Step Settings := do
  let p ← player name
  let settings ← settingsNamed settings
  let _ ← putPlayer name { p with settings }
  return settings

/-! ### Parameters and bindings -/

/-- Where parameters or bindings are kept. -/
inductive Owner
  /-- In a player. -/
  | player (name : String)
  /-- In a playback. -/
  | playback (name : String)
  /-- On their own. -/
  | alone (name : String)

/-- A playback of the session. -/
def playback (name : String) : Step (Playback stage) := do
  orNoObject ((← get).playbacks.lookup name)

/-- Takes over a playback, and what happened on it. -/
def putPlayback (name : String) (pb : Playback stage) : Step (Playback stage) := do
  let pb ← drain "" pb
  modify fun s => { s with playbacks := s.playbacks.put name pb }
  return pb

/-- Turns the clock of a playback on, sets it back, and sets or clears the stop request. -/
def adjustPlayback (name : String) (advance : Option Float) (reset : Bool)
    (stopRequested : Option Bool) : Step (Playback stage) := do
  let pb ← playback name
  let clock := (advance.map pb.clock.advance).getD pb.clock
  let clock := if reset then .zero else clock
  putPlayback name
    { pb with clock, stopRequested := stopRequested.getD pb.stopRequested }

/-- The parameters of an owner. -/
def parametersOf : Owner → Step Parameters
  | .player name => do return (← player name).playback.parameters
  | .playback name => do return (← playback name).parameters
  | .alone name => do orNoObject ((← get).parameters.lookup name)

/-- Replaces the parameters of an owner. -/
def putParameters (owner : Owner) (parameters : Parameters) : Step Parameters := do
  match owner with
  | .player name =>
    let p ← player name
    let _ ← putPlayer name { p with playback := { p.playback with parameters } }
  | .playback name =>
    let pb ← playback name
    let _ ← putPlayback name { pb with parameters }
  | .alone name => modify fun s => { s with parameters := s.parameters.put name parameters }
  return parameters

/-- The bindings of an owner. -/
def bindingsOf : Owner → Step Bindings
  | .player name => do return (← player name).playback.bindings
  | .playback name => do return (← playback name).bindings
  | .alone name => do orNoObject ((← get).bindings.lookup name)

/-- Replaces the bindings of an owner. -/
def putBindings (owner : Owner) (bindings : Bindings) : Step Bindings := do
  match owner with
  | .player name =>
    let p ← player name
    let _ ← putPlayer name { p with playback := { p.playback with bindings } }
  | .playback name =>
    let pb ← playback name
    let _ ← putPlayback name { pb with bindings }
  | .alone name => modify fun s => { s with bindings := s.bindings.put name bindings }
  return bindings

/-- Reconciles bindings: those of a player with its own sequence, others with a given one. -/
def syncBindings (owner : Owner) (name : String) : Step BindingReport := do
  match owner with
  | .player player =>
    let (report, p) := (← Step.player player).reconcileBindings
    let _ ← putPlayer player p
    return report
  | owner =>
    let b ← bindingsOf owner
    let outcome := b.reconcile (← sequence name)
    let _ ← putBindings owner outcome.bindings
    report outcome.notices
    return outcome.report

/-- Edits bindings and returns the group of an occurrence afterwards. -/
def editBindings (owner : Owner) (o : Occurrence)
    (edit : Bindings → Except BindingError Unit × Bindings) : Step (Option Group) := do
  let (result, b) := edit (← bindingsOf owner)
  let _ ← putBindings owner b
  orRefused .binding result
  return b.group? o

/-- Makes bindings out of their written form. -/
def readBindings (name text : String) : Step Bindings := do
  putBindings (.alone name)
    (← orRefused .binding (Bindings.ofRon Ron.standard Uuid.standard text))

/-- The written form of bindings. -/
def writtenBindings (owner : Owner) : Step String := do
  orRefused .binding ((← bindingsOf owner).toRon Ron.standard Uuid.standard)

/-- Writes bindings and reads what was written. -/
def reread (b : Bindings) : Step Bindings := do
  let text ← orRefused .binding (b.toRon Ron.standard Uuid.standard)
  orRefused .binding (Bindings.ofRon Ron.standard Uuid.standard text)

/-- Gives a player a copy of bindings. -/
def setBindings (name bindings : String) : Step BindingReport := do
  let p ← player name
  let b ← bindingsOf (.alone bindings)
  let (report, p) := p.setBindings b
  let _ ← putPlayer name p
  return report

end Sequencer.Rehearsal.Step
