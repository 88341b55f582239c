import Sequencer.Node
import Sequencer.Notice

/-!
# Sequencer.Sequence

A sequence of nodes: a template that is edited as a value and then shared by players, who never
change it.

* `Sequence.Editing`: steps that edit a sequence in place, and note what they notice;
* `Editing.reconcile`: brings the override registry in line with the declared fields;
* `Editing.add`, `insert`, `erase`, `move`, `edit`: edits of the node list, each of which ends with
  a reconciliation;
* `Editing.rename`: changes a node's display name, which touches no field.
-/

namespace Sequencer

/-- A node in its place, with its display name. -/
structure Entry (H : Host) (σ : Type) where
  /-- The node's identifier. -/
  id : NodeId
  /-- The display name. -/
  name : String
  /-- The node. -/
  node : Node H σ

namespace Entry

variable {H : Host} {σ : Type}

/-- A node under its default name, which is its kind. -/
def new (id : NodeId) (node : Node H σ) : Entry H σ := ⟨id, node.kind, node⟩

/-- The name, with the kind behind it where they differ. -/
def label (e : Entry H σ) : String :=
  if e.name = e.node.kind then e.name else e.name ++ " (" ++ e.node.kind ++ ")"

end Entry

/-- A sequence of nodes. -/
structure Sequence (H : Host) where
  /-- The identifier. -/
  id : SequenceId
  /-- The name. -/
  name : String
  /-- Do all nodes run at once, instead of in list order? -/
  parallel : Bool := false
  /-- The nodes in order. -/
  nodes : List (Entry H (Sequence H)) := []
  /-- The registry of the nodes' override fields. -/
  registry : Registry := []

/-- Why a sequence could not be edited. -/
inductive SequenceError
  /-- The position is outside of the node list. -/
  | indexOutOfRange (index length : Nat)
  /-- The sequence has no such node. -/
  | nodeNotFound (id : NodeId)
  /-- The number is neither a positive count nor the mark for no end. -/
  | invalidLoopCount (count : Int)
  deriving DecidableEq, Repr

namespace SequenceError

/-- The text of a refusal, given how identifiers of nodes are shown. -/
def message (nameOf : NodeId → String) : SequenceError → String
  | indexOutOfRange index length =>
    "Node index " ++ toString index ++ " out of range for a sequence of " ++ toString length
      ++ " nodes"
  | nodeNotFound id => "Node not found: NodeId(" ++ nameOf id ++ ")"
  | invalidLoopCount count =>
    "Invalid loop count " ++ toString count ++ ": expected -1 or a positive count"

end SequenceError

namespace Sequence

variable {H : Host}

/-- The name of a sequence that nobody named. -/
def untitled : String := "Untitled Sequence"

/-- A sequence without nodes. -/
def new (id : SequenceId) (name : String := untitled) (parallel : Bool := false) : Sequence H :=
  { id, name, parallel }

/-- The number of nodes. -/
def length (s : Sequence H) : Nat := s.nodes.length

/-- The position of a node. -/
def position? (s : Sequence H) (id : NodeId) : Option Nat :=
  s.nodes.findIdx? (·.id == id)

/-- The node with an identifier. -/
def find? (s : Sequence H) (id : NodeId) : Option (Entry H (Sequence H)) :=
  s.nodes.find? (·.id == id)

/-- The position of a node, with what stands there. -/
def locate? (s : Sequence H) (id : NodeId) : Option (Nat × Entry H (Sequence H)) := do
  let position ← s.position? id
  return (position, ← s.nodes[position]?)

/-- The fields that the nodes declare, in order. -/
def claims (nodes : List (Entry H (Sequence H))) : List Registry.Claim :=
  nodes.flatMap fun e => e.node.declarations.map (⟨e.id, ·⟩)

/-- Hands indices to the declared fields of a list of nodes, in order. -/
def assignAll : List (Entry H (Sequence H)) → List OverrideIndex → List (Entry H (Sequence H))
  | [], _ => []
  | e :: rest, indices =>
    let count := e.node.declarations.length
    { e with node := e.node.assign (indices.take count) } :: assignAll rest (indices.drop count)

/-- A sequence that is being edited, with what the edits noticed. -/
structure Edited (H : Host) where
  /-- The sequence as it is now. -/
  sequence : Sequence H
  /-- What the last reconciliation did. -/
  report : RegistryReport
  /-- What there is to log. -/
  notices : List Notice

/-- A sequence that no edit has changed. -/
def Edited.unchanged (s : Sequence H) : Edited H := ⟨s, {}, []⟩

/-- Edits of a sequence in place. An edit that does not apply says so in its result, and what was
changed before that stays changed. -/
abbrev Editing (m : Type → Type) (H : Host) := StateT (Edited H) m

namespace Editing

variable {m : Type → Type} [Monad m] (counting : Counting m)

/-- The sequence as it is now. -/
def current : Editing m H (Sequence H) := do
  return (← get).sequence

/-- Replaces the node list. -/
def setNodes (nodes : List (Entry H (Sequence H))) : Editing m H Unit :=
  modify fun e => { e with sequence := { e.sequence with nodes } }

/-- Reconciles the registry with the fields the nodes declare. Fields whose address is in the
registry keep it; others get fresh indices; entries without a field are dropped. -/
def reconcile : Editing m H RegistryReport := do
  let s ← current
  let outcome ← (s.registry.reconcileM counting (claims s.nodes) : m Reconciled)
  modify fun e =>
    { sequence :=
        { s with nodes := assignAll s.nodes outcome.indices, registry := outcome.registry }
      report := outcome.report
      notices :=
        e.notices ++ (outcome.duplicates.map (.declaredTwice s.name)
          ++ if outcome.report.isUnchanged then []
            else [.registryReconciled s.name outcome.report]) }
  return outcome.report

/-- Appends a node. -/
def add (id : NodeId) (node : Node H (Sequence H)) : Editing m H NodeId := do
  let s ← current
  setNodes (s.nodes ++ [.new id node])
  let _ ← reconcile counting
  return id

/-- Inserts a node at a position, which may be the end. -/
def insert (position : Nat) (id : NodeId) (node : Node H (Sequence H)) :
    Editing m H (Except SequenceError NodeId) := do
  let s ← current
  if s.length < position then return .error (.indexOutOfRange position s.length)
  setNodes (s.nodes.insertIdx position (.new id node))
  let _ ← reconcile counting
  return .ok id

/-- Removes a node, and with it the entries of its fields. -/
def erase (id : NodeId) : Editing m H (Option (Entry H (Sequence H))) := do
  let s ← current
  let some (position, removed) := s.locate? id | return none
  setNodes (s.nodes.eraseIdx position)
  let _ ← reconcile counting
  return some removed

/-- Moves a node to another position. -/
def move (id : NodeId) (target : Nat) : Editing m H (Except SequenceError Unit) := do
  let s ← current
  let some (position, entry) := s.locate? id | return .error (.nodeNotFound id)
  if s.length ≤ target then return .error (.indexOutOfRange target s.length)
  setNodes (s.nodes.eraseIdx position)
  setNodes ((s.nodes.eraseIdx position).insertIdx target entry)
  let _ ← reconcile counting
  return .ok ()

/-- Changes a node's configuration, and returns what the change returns. -/
def edit {α : Type} (id : NodeId) (change : Node H (Sequence H) → α × Node H (Sequence H)) :
    Editing m H (Option α) := do
  let s ← current
  let some (position, entry) := s.locate? id | return none
  let (result, node) := change entry.node
  setNodes (s.nodes.set position { entry with node })
  let _ ← reconcile counting
  return some result

/-- Changes a node's display name. Is there such a node? -/
def rename (id : NodeId) (name : String) : Editing m H Bool := do
  let s ← current
  let some (position, entry) := s.locate? id | return false
  setNodes (s.nodes.set position { entry with name })
  return true

end Editing

/-- The sequences that the nodes nest, with the identities they are nested under. -/
def nestedSequences (s : Sequence H) : List (NestedId × Sequence H) :=
  s.nodes.filterMap (·.node.nested?)

end Sequence

/-- Nodes whose nested sequences are sequences. -/
abbrev SequenceNode (H : Host) := Node H (Sequence H)

/-- Entries of a sequence. -/
abbrev SequenceEntry (H : Host) := Entry H (Sequence H)

end Sequencer
