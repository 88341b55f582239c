import Mathlib.Logic.Function.Iterate
import Sequencer.Proofs.Timing.Duration

/-!
# Sequencer.Proofs.Recital.Basic

What a sequence comes to if none of its nodes takes time.

`Sequence.Prompt` singles out the sequences all of whose nodes are done when they are invoked, or
nest sequences of the same kind for a number of passes. Skips go forward only, and there are no
blocks. For these, `Sequence.recite` goes through the nodes from left to right, whether they are
meant to run at once or not: it keeps a list of the nodes whose turn it was, carries the parameters
along, and does no more once a node has asked for a stop.
-/

namespace Sequencer

variable {H : Host}

/-! ### Prompt sequences -/

mutual

/-- Every node is done within the step in which it is invoked. -/
def Sequence.Prompt (b : Bindings) : Sequence H → NestedId → Prop
  | ⟨id, _, _, nodes, _⟩, nested =>
    -- No list in memory is longer.
    (nodes.length : Int) ≤ Cursor.highest ∧ NodesPrompt b nodes ⟨id, nested⟩
termination_by structural s => s

def NodesPrompt (b : Bindings) : List (Entry H (Sequence H)) → Occurrence → Prop
  | [], _ => True
  | ⟨_, _, node⟩ :: rest, o => node.Prompt b o ∧ NodesPrompt b rest o
termination_by structural nodes => nodes

def Node.Prompt (b : Bindings) : Node H (Sequence H) → Occurrence → Prop
  | .setParameter .., _ | .log .., _ | .skipIf .., _ | .stop, _ => True
  | .waitFrames frames, _ => frames = 0
  | .skip count, o => 0 ≤ (b.resolve count o).toInt
  | .nested inner identity (.times _ _), _ => inner.Prompt b identity
  | .host n, _ => H.Instant n.behavior
  | _, _ => False
termination_by structural node => node

end

/-! ### Recitals -/

/-- A node of a sequence, in an occurrence of it. -/
structure Place (H : Host) where
  sequence : Sequence H
  nested : NestedId
  position : Nat

/-- The place of the next node. -/
def Place.next (place : Place H) : Place H := { place with position := place.position + 1 }

/-- The occurrence in which the node is invoked. -/
def Place.occurrence (place : Place H) : Occurrence := ⟨place.sequence.id, place.nested⟩

/-- How far a recital has come. -/
structure Recital (H : Host) where
  /-- The parameters. -/
  parameters : Parameters
  /-- The nodes whose turn it was, the last one first. -/
  turns : List (Place H) := []
  /-- Has a node asked for a stop? -/
  stopped : Bool := false

/-- It is the turn of a node. -/
def Recital.turn (r : Recital H) (place : Place H) : Recital H :=
  { r with turns := place :: r.turns }

/-- How many of the nodes behind it a node skips. -/
def Node.skipped (b : Bindings) (o : Occurrence) (parameters : Parameters) :
    SequenceNode H → Nat
  | .skip count => (b.resolve count o).toInt.toNat
  | .skipIf name expected count => if parameters.getD Bool name == expected then count else 0
  | _ => 0

/-- The parameters after the invocation of a host node in the first step. -/
def HostNode.recite (b : Bindings) (n : HostNode H (Sequence H)) (place : Place H)
    (parameters : Parameters) : Parameters :=
  let values := n.fields.map fun f => b.resolveValue f.field place.occurrence
  let call : Call := ⟨place.sequence.id, place.nested, values⟩
  let around : Surroundings := ⟨⟨place.position⟩, parameters, .zero, false⟩
  (H.invoke n.behavior call around).1.surroundings.parameters

mutual

/-- Goes through a sequence once. -/
def Sequence.recite (b : Bindings) : Sequence H → NestedId → Recital H → Recital H
  | ⟨id, name, parallel, nodes, registry⟩, nested, r =>
    reciteNodes b nodes 0 ⟨⟨id, name, parallel, nodes, registry⟩, nested, 0⟩ r
termination_by structural s => s

/-- Goes through the nodes of a list, the first one of which has the given place, but for the next
`passed` ones. -/
def reciteNodes (b : Bindings) :
    List (Entry H (Sequence H)) → Nat → Place H → Recital H → Recital H
  | [], _, _, r => r
  | _ :: rest, passed + 1, place, r => reciteNodes b rest passed place.next r
  | ⟨_, _, node⟩ :: rest, 0, place, r =>
    if r.stopped then r
    else
      let passed := node.skipped b place.occurrence r.parameters
      reciteNodes b rest passed place.next (node.recite b place (r.turn place))
termination_by structural nodes => nodes

/-- What a node does when it is its turn. -/
def Node.recite (b : Bindings) : Node H (Sequence H) → Place H → Recital H → Recital H
  | .setParameter name value, _, r => { r with parameters := r.parameters.set name value }
  | .stop, _, r => { r with stopped := true }
  | .nested inner identity (.times count _), _, r => (inner.recite b identity)^[count] r
  | .host n, place, r => { r with parameters := n.recite b place r.parameters }
  | _, _, r => r
termination_by structural node => node

end

theorem NodesPrompt.of_mem {b : Bindings} {o : Occurrence} {nodes : List (SequenceEntry H)}
    (h : NodesPrompt b nodes o) : ∀ entry ∈ nodes, entry.node.Prompt b o := by
  induction nodes with
  | nil => simp
  | cons entry rest ih => exact List.forall_mem_cons.mpr ⟨h.1, ih h.2⟩

theorem Sequence.recite_eq (b : Bindings) (s : Sequence H) (nested : NestedId) (r : Recital H) :
    s.recite b nested r = reciteNodes b s.nodes 0 ⟨s, nested, 0⟩ r := by
  cases s
  rfl

theorem reciteNodes_cons (b : Bindings) (entry : SequenceEntry H) (rest : List (SequenceEntry H))
    (place : Place H) {r : Recital H} (h : r.stopped = false) :
    reciteNodes b (entry :: rest) 0 place r =
      reciteNodes b rest (entry.node.skipped b place.occurrence r.parameters) place.next
        (entry.node.recite b place (r.turn place)) := by
  rw [reciteNodes, h]
  rfl

/-! ### After a stop -/

theorem reciteNodes_stopped (b : Bindings) (nodes : List (SequenceEntry H)) (passed : Nat)
    (place : Place H) {r : Recital H} (h : r.stopped = true) :
    reciteNodes b nodes passed place r = r := by
  induction nodes generalizing passed place with
  | nil => rfl
  | cons entry rest ih =>
      cases passed with
      | succ passed => exact ih passed _
      | zero => rw [reciteNodes, if_pos h]

theorem Sequence.recite_stopped (b : Bindings) (s : Sequence H) (nested : NestedId)
    {r : Recital H} (h : r.stopped = true) : s.recite b nested r = r := by
  rw [recite_eq, reciteNodes_stopped b s.nodes 0 ⟨s, nested, 0⟩ h]

end Sequencer
