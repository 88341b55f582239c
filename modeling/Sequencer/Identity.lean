import Sequencer.Uuid

/-!
# Sequencer.Identity

What sequences, nodes, occurrences of nested sequences and host objects are known by.
-/

namespace Sequencer

/-- Identifies a sequence. -/
structure SequenceId where
  /-- The identifier. -/
  uuid : Uuid
  deriving DecidableEq, Repr, Inhabited

/-- Identifies a node of a sequence. -/
structure NodeId where
  /-- The identifier. -/
  uuid : Uuid
  deriving DecidableEq, Repr, Inhabited

/-- Identifies one occurrence of a nested sequence: the node that nests it keeps the identity
through edits. The nil value stands for the sequence that a player plays, which nothing nests. -/
structure NestedId where
  /-- The identifier. -/
  uuid : Uuid
  deriving DecidableEq, Repr

/-- Identifies a host object that a node acts on. -/
structure EntityId where
  /-- The identifier. -/
  uuid : Uuid
  deriving DecidableEq, Repr, Inhabited

namespace NestedId

/-- The occurrence of the sequence that nothing nests. -/
def root : NestedId := ⟨.nil⟩

instance : Inhabited NestedId := ⟨root⟩

/-- Is this the outermost occurrence? -/
def isRoot (n : NestedId) : Bool := n == root

instance : ToString NestedId :=
  ⟨fun n => if n.isRoot then "root" else toString n.uuid⟩

end NestedId

end Sequencer
