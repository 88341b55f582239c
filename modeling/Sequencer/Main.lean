import Sequencer.Demo.Performance

/-!
# Sequencer.Main

The command line: plays the demo, with the settings of the file that is named first, if one is.
-/

namespace Sequencer.Demo

/-- Reads a settings file. -/
def readSettingsFile (path : String) : IO Settings.File := do
  try
    return .bytes (← IO.FS.readBinFile path)
  catch _ => return .missing

/-- Plays the demo, prints its log and returns the exit code. -/
def runProgram (args : List String) : IO UInt32 := do
  let file ← args.head?.mapM fun path => return (path, ← readSettingsFile path)
  match perform 1000000000 file with
  | none => return 1
  | some outcome =>
    outcome.lines.forM IO.println
    return if outcome.failed then 1 else 0

end Sequencer.Demo

/-- Plays the demo. -/
def main (args : List String) : IO UInt32 := Sequencer.Demo.runProgram args
