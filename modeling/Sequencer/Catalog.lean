import Sequencer.Sequence

/-!
# Sequencer.Catalog

The kinds of nodes that tooling offers, each with a description and a way to create a node with its
initial configuration. Kinds keep the order of their first registration.
-/

namespace Sequencer

/-- What a kind of node is for. -/
inductive Category
  /-- Moving through a sequence. -/
  | flow
  /-- Nested sequences. -/
  | nesting
  /-- Waiting. -/
  | timing
  /-- Parameters. -/
  | data
  /-- Diagnostics. -/
  | debug
  /-- Kinds of the host. -/
  | custom
  deriving DecidableEq, Repr, Inhabited

namespace Category

/-- The name of a category. -/
def name : Category → String
  | flow => "Flow"
  | nesting => "Nesting"
  | timing => "Timing"
  | data => "Data"
  | debug => "Debug"
  | custom => "Custom"

/-- Every category. -/
def all : List Category := [flow, nesting, timing, data, debug, custom]

/-- The category with a name. -/
def ofName? (name : String) : Option Category := all.find? (·.name == name)

end Category

/-- The identities that a new node may need. -/
structure FreshIds where
  /-- For a sequence that the node brings along. -/
  sequence : SequenceId
  /-- For the occurrence of it. -/
  identity : NestedId

/-- A kind of node. -/
structure NodeKind (H : Host) where
  /-- The kind tag. -/
  kind : String
  /-- What it is for. -/
  category : Category
  /-- A description. -/
  description : String
  /-- A node with the initial configuration. -/
  create : FreshIds → SequenceNode H

namespace NodeKind

/-- The form for inspection. -/
def inspected {H : Host} (k : NodeKind H) : String :=
  "NodeKind \x7b kind: " ++ Text.inspected k.kind ++ ", category: " ++ k.category.name
    ++ ", .. \x7d"

end NodeKind

/-- The kinds of nodes on offer. -/
structure Catalog (H : Host) where
  /-- The kinds, in order of their first registration. -/
  kinds : List (NodeKind H) := []

namespace Catalog

variable {H : Host}

/-- A catalog without kinds. -/
def empty : Catalog H := {}

/-- The kind with a tag. -/
def find? (c : Catalog H) (kind : String) : Option (NodeKind H) :=
  c.kinds.find? (·.kind == kind)

/-- Adds a kind, in the place of one that has its tag. -/
def register (c : Catalog H) (k : NodeKind H) : Catalog H × List Notice :=
  if (c.find? k.kind).isSome then
    (⟨modifyFirst (·.kind == k.kind) (fun _ => k) c.kinds⟩, [.kindReplaced k.kind])
  else (⟨c.kinds ++ [k]⟩, [])

/-- The kinds of a category. -/
def inCategory (c : Catalog H) (category : Category) : List (NodeKind H) :=
  c.kinds.filter (·.category == category)

/-- A node of a kind, with its initial configuration. -/
def createNode (c : Catalog H) (ids : FreshIds) (kind : String) : Option (SequenceNode H) :=
  (c.find? kind).map (·.create ids)

/-- The number of kinds. -/
def size (c : Catalog H) : Nat := c.kinds.length

/-- The built-in kinds. -/
def standard : Catalog H where
  kinds :=
    [⟨"Skip Nodes", .flow, "Skips the following nodes", fun _ => .skip (.new 1)⟩,
     ⟨"Skip If Parameter", .flow, "Skips the following nodes depending on a parameter",
       fun _ => .skipIf "" true 1⟩,
     ⟨"Parallel Next", .flow, "Plays the following nodes at the same time",
       fun _ => .parallelNext 2⟩,
     ⟨"Stop Sequence", .flow, "Stops the player running this sequence", fun _ => .stop⟩,
     ⟨"Nested Sequence", .nesting, "Plays another sequence, optionally looping it",
       fun ids => .nested (.new ids.sequence) ids.identity .once⟩,
     ⟨"Wait", .timing, "Waits for a duration", fun _ => .wait (.new 1.0)⟩,
     ⟨"Wait Frames", .timing, "Waits for a number of steps", fun _ => .waitFrames 1⟩,
     ⟨"Wait Until Parameter", .timing, "Waits until a parameter has a value",
       fun _ => .waitUntil "" true⟩,
     ⟨"Set Parameter", .data, "Sets a player parameter",
       fun _ => .setParameter "" (.bool false)⟩,
     ⟨"Log Message", .debug, "Writes a message to the log", fun _ => .log (.new "") .info⟩]

end Catalog

end Sequencer
