import Sequencer.Notice
import Sequencer.Ron.Coding
import Sequencer.Settings.Basic

/-!
# Sequencer.Settings.Ron

Settings as RON text. They are written as a named record with a line for each setting; when they are
read, a missing setting takes its default and an unknown one is skipped. Settings of a newer version
than the current one are refused, once the text is read.

The library that writes and reads RON is a parameter.
-/

namespace Sequencer

/-- Why settings could not be read or written. -/
inductive SettingsError
  /-- The file could not be read. -/
  | inaccessible (reason : String)
  /-- The text holds no settings. -/
  | malformed
  /-- The settings could not be written. -/
  | unwritable
  /-- The settings are of a newer version than the newest that is supported. -/
  | unsupportedVersion (found supported : UInt32)
  deriving DecidableEq, Repr

namespace SettingsError

/-- The text of a refusal. -/
def message : SettingsError → String
  | inaccessible reason => "I/O error: " ++ reason
  | malformed => "Parse error: malformed settings"
  | unwritable => "Serialization error: settings that cannot be written"
  | unsupportedVersion found supported =>
    "Settings version " ++ toString found.toNat ++ " is newer than supported version "
      ++ toString supported.toNat

end SettingsError

namespace Settings

open Ron

/-- The name of the record. -/
def recordName : String := "PlayerSettings"

/-- The fields of settings. -/
def parts : List (Coding.Part Settings) :=
  [.of "version" .u32 (·.version) fun version s => { s with version },
   .of "time_scale" .single (·.timeScale) fun timeScale s => { s with timeScale },
   .of "fixed_timestep" Coding.double.option (·.fixedTimestep) fun fixedTimestep s =>
     { s with fixedTimestep },
   .of "max_steps_per_update" .u32 (·.maxStepsPerUpdate) fun maxStepsPerUpdate s =>
     { s with maxStepsPerUpdate }]

/-- Settings, any of which may be missing. -/
def coding : Coding Settings := .recordOr {} recordName parts

/-- Settings as text. -/
def toRon (ron : Library) (s : Settings) : Except SettingsError String :=
  match coding.print ron true s with
  | none => .error .unwritable
  | some text => .ok text

/-- Refuses settings of a newer version than the current one. -/
def checkVersion (s : Settings) : Except SettingsError Settings :=
  if currentVersion < s.version then .error (.unsupportedVersion s.version currentVersion)
  else .ok s

/-- Reads settings. -/
def ofRon (ron : Library) (text : String) : Except SettingsError Settings :=
  match coding.parse ron text with
  | none => .error .malformed
  | some s => s.checkVersion

/-- What a path leads to. -/
inductive File
  /-- Nothing. -/
  | missing
  /-- A file with this content. -/
  | bytes (content : ByteArray)

/-- Reads the settings file at a path. -/
def load (ron : Library) (path : String) (file : File) :
    Except SettingsError (Settings × List Notice) :=
  match file with
  | .missing => .error (.inaccessible "No such file or directory (os error 2)")
  | .bytes content =>
    match String.fromUTF8? content with
    | none => .error (.inaccessible "stream did not contain valid UTF-8")
    | some text => (ofRon ron text).map (·, [.settingsLoaded path])

/-- The content of a settings file at a path. -/
def save (ron : Library) (path : String) (s : Settings) :
    Except SettingsError (File × List Notice) :=
  (s.toRon ron).map fun text => (.bytes text.toUTF8, [.settingsSaved path])

end Settings

end Sequencer
