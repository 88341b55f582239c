import Sequencer.Binding.Basic
import Sequencer.Severity
import Sequencer.Text.Quoted

/-!
# Sequencer.Notice

What the library reports while it works, each with a severity and a line of text.
-/

namespace Sequencer

/-- What a reconciliation of bindings did. -/
structure BindingReport where
  /-- Groups created for occurrences that had none. -/
  groupsAdded : Nat := 0
  /-- Groups dropped because nothing fits them. -/
  groupsRemoved : Nat := 0
  /-- Slots created. -/
  slotsAdded : Nat := 0
  /-- Slots dropped. -/
  slotsRemoved : Nat := 0
  /-- Slots that held a value of the wrong kind. -/
  slotsReset : Nat := 0
  deriving DecidableEq, Repr

namespace BindingReport

/-- Was everything in order already? -/
def isUnchanged (r : BindingReport) : Bool := r == {}

/-- The counts with their names. -/
def text (r : BindingReport) : String :=
  "BindingSync \x7b groups_added: " ++ toString r.groupsAdded
    ++ ", groups_removed: " ++ toString r.groupsRemoved
    ++ ", slots_added: " ++ toString r.slotsAdded
    ++ ", slots_removed: " ++ toString r.slotsRemoved
    ++ ", slots_reset: " ++ toString r.slotsReset ++ " \x7d"

end BindingReport

/-- Something worth a log line. -/
inductive Notice
  /-- Two fields of a sequence carried one address. -/
  | declaredTwice (sequence : String) (key : OverrideKey)
  /-- A registry was reconciled, and changed. -/
  | registryReconciled (sequence : String) (report : RegistryReport)
  /-- A sequence nests itself. -/
  | nestsItself (sequence : String)
  /-- A slot held a value of another kind than its own. -/
  | slotReset (index : OverrideIndex) (sequence : String) (nested : NestedId) (found : ValueType)
  /-- Bindings were reconciled, and changed. -/
  | bindingsReconciled (sequence : String) (report : BindingReport)
  /-- A kind was registered over another with its tag. -/
  | kindReplaced (tag : String)
  /-- A node is being invoked. -/
  | invoking (sequence : String) (position : Nat) (label : String) (parallel : Bool)
  /-- The branches of a join were polled. -/
  | joinPolled (completed started : Nat)
  /-- A pass of a nested sequence ended. -/
  | passDone (sequence : String) (passes : Nat)
  /-- A node wrote a message. -/
  | message (severity : Severity) (sequence text : String)
  /-- Playback starts. -/
  | playing (sequence : String)
  /-- Playback was cancelled. -/
  | stopped (sequence : String)
  /-- Playback is cancelled to start again. -/
  | restarting (sequence : String)
  /-- A node asked for a stop in the step that ends. -/
  | stopRequested (sequence : String)
  /-- Playback finished on its own. -/
  | finished (sequence : String) (steps : Nat)
  /-- An update gave up on time that it could not step through. -/
  | backlogDropped (seconds : Float)
  /-- Settings were read from a file. -/
  | settingsLoaded (path : String)
  /-- Settings were written to a file. -/
  | settingsSaved (path : String)
  deriving DecidableEq

namespace Notice

/-- A name between single quotes. -/
def quote (name : String) : String := "'" ++ name ++ "'"

/-- The importance of a report. -/
def severity : Notice → Severity
  | declaredTwice .. | nestsItself _ | slotReset .. | kindReplaced _ => .warn
  | registryReconciled .. | bindingsReconciled .. | invoking .. | stopRequested _
  | settingsLoaded _ | settingsSaved _ => .debug
  | joinPolled .. | passDone .. | backlogDropped _ => .trace
  | playing _ | stopped _ | restarting _ | finished .. => .info
  | message severity _ _ => severity

/-- The text of a report. -/
def text : Notice → String
  | declaredTwice s key =>
    "Sequence " ++ quote s ++ ": override " ++ toString key.index ++ " (" ++ key.type.name
      ++ ") is declared twice, reindexing"
  | registryReconciled s r =>
    "Synchronized overrides of " ++ quote s ++ ": " ++ toString r.added ++ " added, "
      ++ toString r.removed ++ " removed, " ++ toString r.reindexed ++ " reindexed"
  | nestsItself s => "Sequence " ++ quote s ++ " nests itself, ignoring the inner occurrence"
  | slotReset index s nested found =>
    "Binding " ++ toString index ++ " of " ++ quote s ++ " (" ++ toString nested ++ ") held a "
      ++ found.name ++ " value, resetting"
  | bindingsReconciled s r => "Synchronized bindings for " ++ quote s ++ ": " ++ r.text
  | kindReplaced tag => "Node kind " ++ quote tag ++ " registered twice, keeping the last one"
  | invoking s position label parallel =>
    quote s ++ " [" ++ toString position ++ "] " ++ label
      ++ (if parallel then " (parallel)" else "")
  | joinPolled completed started =>
    "Parallel join " ++ toString completed ++ "/" ++ toString started
  | passDone s passes => quote s ++ " pass " ++ toString passes ++ " done"
  | message _ s text => "[" ++ s ++ "] " ++ text
  | playing s => "Playing sequence " ++ quote s
  | stopped s => "Stopped sequence " ++ quote s
  | restarting s => "Restarting sequence " ++ quote s
  | stopRequested s => "Stop requested by " ++ quote s
  | finished s steps =>
    "Sequence " ++ quote s ++ " finished after " ++ toString steps ++ " steps"
  | backlogDropped seconds =>
    "Dropping " ++ (BinaryNumber.ofFloat seconds).fixed 3 ++ "s of accumulated time"
  | settingsLoaded path => "Loaded player settings from " ++ Text.inspected path
  | settingsSaved path => "Saved player settings to " ++ Text.inspected path

/-- The log line: severity and text. -/
def line (n : Notice) : String := n.severity.tag ++ " " ++ n.text

end Notice

end Sequencer
