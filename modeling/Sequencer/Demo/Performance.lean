import Sequencer.Demo.Cutscene
import Sequencer.Player.Inspection
import Sequencer.Ron.Standard
import Sequencer.Settings.Ron

/-!
# Sequencer.Demo.Performance

The performance of the cutscene by two players, one with the values of the template and one with
its own, told in log lines.

The log holds what the library reports down to the level of development, and what the performance
itself has to say.
-/

namespace Sequencer.Demo

/-- The time between two frames of the host, in seconds. -/
def frameTime : Float := 1.0 / 60.0

/-- After so many frames a player is stopped. -/
def maxFrames : Nat := 60 * 30

/-- A log line of the performance itself. -/
def remark (severity : Severity) (text : String) : String :=
  severity.tag ++ " " ++ text

/-- The log lines of what the library reports. -/
def noticeLines (notices : List Notice) : List String :=
  (notices.filter (·.severity.passes .debug)).map Notice.line

/-- The log lines of what happened to a player. -/
def eventLines : Event .none → List String
  | .finished => [remark .info "Finished"]
  | .stopped status =>
    [remark .info ("Stopped at " ++ (BinaryNumber.ofFloat status.clock.elapsed).fixed 2 ++ "s")]
  | e => noticeLines e.notice?.toList

/-- The log lines of everything that happened to a player. -/
def historyLines (p : Player .none) : List String :=
  p.playback.history.reverse.flatMap eventLines

/-- The player without its history. -/
def forget (p : Player .none) : Player .none :=
  { p with playback := { p.playback with history := [] } }

/-- Lets frames pass until the player is done, and stops it if the frames run out. -/
def playFrames (fuel : Nat) : Nat → Player .none → Option (Player .none)
  | 0, p => some p.stop
  | frames + 1, p =>
    if p.isPlaying then
      match p.update fuel frameTime with
      | none => none
      | some (_, p) => playFrames fuel frames p
    else some p

/-- The log lines of a player that plays its sequence to the end. -/
def playLines (fuel : Nat) (title : String) (p : Player .none) : Option (List String) := do
  let p ← playFrames fuel maxFrames (← p.play fuel)
  return remark .info ("--- " ++ title ++ " ---") :: historyLines p

/-- What becomes of a performance. -/
structure Outcome where
  /-- The log, in order. -/
  lines : List String
  /-- Did something go wrong? -/
  failed : Bool := false

/-- A performance that went wrong, by what was to be done. -/
def failure (lines : List String) (task reason : String) : Outcome :=
  ⟨lines ++ [remark .error ("Failed to " ++ task ++ ": " ++ reason)], true⟩

/-- The settings of the performance: those of a file, or steps of the length of a frame. -/
def settings (file : Option (String × Settings.File)) :
    Except SettingsError (Settings × List Notice) :=
  match file with
  | none => .ok (.stepping (.ofFloat frameTime), [])
  | some (path, file) => Settings.load Ron.standard path file

/-- What is said about the cutscene. -/
def summary (scene : Sequence .none) : String :=
  "Cutscene '" ++ scene.name ++ "' has " ++ toString scene.length ++ " nodes and "
    ++ toString scene.registry.length ++ " overridable fields"

/-- The performance of the cutscene, after the given lines. -/
def performWith (fuel : Nat) (lines : List String) (settings : Settings) : Option Outcome := do
  let ((scene, sparkles), desk) := cutscene.run {}
  let lines := lines ++ noticeLines desk.notices ++ [remark .info (summary scene)]
  let authored : Player .none := .new scene settings
  let lines := lines ++ historyLines authored ++ (← playLines fuel "authored" (forget authored))
  let custom : Player .none := .new scene settings
  let lines := lines ++ historyLines custom
  let custom := (forget custom).setParameter "skip_intro" (.bool true)
  match (customize scene sparkles).run.run custom with
  | (.error e, _) => return failure lines "bind overrides" e.message
  | (.ok _, custom) => return ⟨lines ++ (← playLines fuel "custom" custom), false⟩

/-- The whole performance, with the settings of a file if there is one. There is no outcome if the
bound on the length of steps is too small. -/
def perform (fuel : Nat) (file : Option (String × Settings.File)) : Option Outcome :=
  let lines := [remark .info "Starting OrdoPlay sequence demo v0.1.0"]
  match settings file with
  | .error e => some (failure lines "load settings" e.message)
  | .ok (settings, notices) => performWith fuel (lines ++ noticeLines notices) settings

end Sequencer.Demo
