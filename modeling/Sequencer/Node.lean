import Sequencer.Host
import Sequencer.LoopCount
import Sequencer.Override.Field
import Sequencer.Severity

/-!
# Sequencer.Node

The nodes of a sequence: the built-in ones and those of a host. A node refers to the sequences it
nests, so its type takes the type of sequences as a parameter.

* `Node.kind`, `Node.description`, `Node.preview`: how tooling shows a node;
* `Node.declarations`: the fields a node exposes for overriding, in a stable order;
* `Node.assign`: hands indices to those fields, in the same order;
* `Node.nested?`: the sequence that a node refers to, which it need not play.
-/

namespace Sequencer

/-- A field of a host node. -/
structure HostField where
  /-- What tooling calls the field. -/
  label : String
  /-- Does the node declare the field? An undeclared one keeps its index and is still resolved. -/
  declared : Bool := true
  /-- The field. -/
  field : Field Value
  deriving DecidableEq

/-- A node whose behaviour the host supplies. -/
structure HostNode (H : Host) (σ : Type) where
  /-- The kind tag. -/
  kind : String
  /-- A description for tooling. -/
  description : Option String := none
  /-- A summary of the configuration. -/
  preview : Option String := none
  /-- The fields, in order. -/
  fields : List HostField := []
  /-- What the node does. -/
  behavior : H.Behavior
  /-- A sequence that the node refers to, and the identity that it nests it under. -/
  nested : Option (NestedId × σ) := none

/-- A unit of work in a sequence of type `σ`. -/
inductive Node (H : Host) (σ : Type)
  /-- Skips the next nodes; a negative count goes back. -/
  | skip (count : Field Int32)
  /-- Skips the next nodes if a Boolean parameter has the expected value. -/
  | skipIf (parameter : String) (expected : Bool) (count : Nat)
  /-- Runs the next nodes in parallel and waits for all of them. -/
  | parallelNext (count : Nat)
  /-- Stops the player at the end of the step. -/
  | stop
  /-- Runs another sequence in place, under the node's identity. -/
  | nested (sequence : σ) (identity : NestedId) (loops : LoopCount)
  /-- Suspends for a number of seconds. -/
  | wait (seconds : Field Single)
  /-- Suspends for a number of steps. -/
  | waitFrames (frames : Nat)
  /-- Suspends until a Boolean parameter has the expected value. -/
  | waitUntil (parameter : String) (expected : Bool)
  /-- Writes a parameter. -/
  | setParameter (parameter : String) (value : Value)
  /-- Writes a log line. -/
  | log (message : Field String) (severity : Severity)
  /-- A node of the host. -/
  | host (node : HostNode H σ)

namespace Node

variable {H : Host} {σ : Type}

/-- The kind tag, also the default display name. -/
def kind : Node H σ → String
  | skip _ => "Skip Nodes"
  | skipIf .. => "Skip If Parameter"
  | parallelNext _ => "Parallel Next"
  | stop => "Stop Sequence"
  | nested .. => "Nested Sequence"
  | wait _ => "Wait"
  | waitFrames _ => "Wait Frames"
  | waitUntil .. => "Wait Until Parameter"
  | setParameter .. => "Set Parameter"
  | log .. => "Log Message"
  | host n => n.kind

/-- A description for tooling. -/
def description : Node H σ → Option String
  | skip _ => some "Skips the following nodes"
  | skipIf .. => some "Skips the following nodes depending on a parameter"
  | parallelNext _ => some "Plays the following nodes at the same time"
  | stop => some "Stops the player running this sequence"
  | nested .. => some "Plays another sequence, optionally looping it"
  | wait _ => some "Waits for a duration"
  | waitFrames _ => none
  | waitUntil .. => some "Waits until a parameter has a value"
  | setParameter .. => some "Sets a player parameter"
  | log .. => some "Writes a message to the log"
  | host n => n.description

/-- A short summary of the configuration, given the names of sequences. -/
def preview (nameOf : σ → String) : Node H σ → Option String
  | skip count => some (toString count.value.toInt)
  | skipIf parameter expected count =>
    some (parameter ++ " == " ++ toString expected ++ " -> " ++ toString count)
  | parallelNext count => some (toString count)
  | stop => none
  | nested s _ loops => some (nameOf s ++ " " ++ toString loops)
  | wait seconds => some (seconds.value.plain ++ "s")
  | waitFrames frames => some (toString frames ++ " frames")
  | waitUntil parameter expected => some (parameter ++ " == " ++ toString expected)
  | setParameter parameter value => some (parameter ++ " = " ++ value.text)
  | log message _ => some message.value
  | host n => n.preview

/-- The fields the node exposes for overriding. -/
def declarations : Node H σ → List Declaration
  | skip count => [⟨"Count", count.toDynamic⟩]
  | wait seconds => [⟨"Seconds", seconds.toDynamic⟩]
  | log message _ => [⟨"Message", message.toDynamic⟩]
  | host n => (n.fields.filter (·.declared)).map fun f => ⟨f.label, f.field⟩
  | _ => []

/-- All fields of the node, declared or not. -/
def fields : Node H σ → List (Field Value)
  | host n => n.fields.map (·.field)
  | node => node.declarations.map (·.field)

/-- The sequence that the node nests, if it refers to one, and the identity that it nests it
under. -/
def nested? : Node H σ → Option (NestedId × σ)
  | nested s identity _ => some (identity, s)
  | host n => n.nested
  | _ => none

/-- Hands indices to the declared ones of a host node's fields. -/
def assignDeclared : List HostField → List OverrideIndex → List HostField
  | [], _ => []
  | fields, [] => fields
  | f :: rest, index :: indices =>
    if f.declared then
      { f with field := f.field.withIndex index } :: assignDeclared rest indices
    else f :: assignDeclared rest (index :: indices)

/-- Hands indices to the declared fields, in order. Fields without an index left keep theirs, and
indices without a field left are ignored. -/
def assign (indices : List OverrideIndex) (node : Node H σ) : Node H σ :=
  match node, indices with
  | skip count, index :: _ => .skip (count.withIndex index)
  | wait seconds, index :: _ => .wait (seconds.withIndex index)
  | log message severity, index :: _ => .log (message.withIndex index) severity
  | host n, indices => .host { n with fields := assignDeclared n.fields indices }
  | node, _ => node

end Node

end Sequencer
