import Sequencer.Sequence

/-!
# Sequencer.Binding.Occurrence

The occurrences of sequences that a player of a root sequence can reach, depth first in order of
the first visit. An occurrence is addressed by the sequence and the identity of the innermost node
that nests it, so that a sequence inside of one that is nested twice occurs once. Along one path no
sequence is entered twice.
-/

namespace Sequencer

/-- A reachable sequence and the identity it is nested under. -/
structure Reached (H : Host) where
  /-- The sequence. -/
  sequence : Sequence H
  /-- The identity of the innermost node that nests it. -/
  nested : NestedId

namespace Reached

variable {H : Host}

/-- What the bindings of the occurrence are addressed by. -/
def key (r : Reached H) : Occurrence := ⟨r.sequence.id, r.nested⟩

end Reached

/-- What a traversal has found so far. -/
structure Traversal (H : Host) where
  /-- The occurrences in order of the first visit. -/
  reached : List (Reached H) := []
  /-- What there is to log. -/
  notices : List Notice := []

namespace Traversal

variable {H : Host}

/-- Adds an occurrence unless one with its address is there. -/
def add (t : Traversal H) (r : Reached H) : Traversal H :=
  if t.reached.any (·.key == r.key) then t else { t with reached := t.reached ++ [r] }

mutual

/-- Visits a sequence and everything it nests. The path holds the sequences being visited. -/
def visit : Sequence H → NestedId → List SequenceId → Traversal H → Traversal H
  | ⟨id, name, parallel, nodes, registry⟩, nested, path, t =>
    if path.contains id then { t with notices := t.notices ++ [.nestsItself name] }
    else visitNodes nodes (id :: path) (t.add ⟨⟨id, name, parallel, nodes, registry⟩, nested⟩)
termination_by structural s => s

/-- Visits what a list of nodes nests. -/
def visitNodes : List (SequenceEntry H) → List SequenceId → Traversal H → Traversal H
  | [], _, t => t
  | ⟨_, _, .nested s identity _⟩ :: rest, path, t =>
    visitNodes rest path (visit s identity path t)
  | ⟨_, _, .host ⟨_, _, _, _, _, some (identity, s)⟩⟩ :: rest, path, t =>
    visitNodes rest path (visit s identity path t)
  | _ :: rest, path, t => visitNodes rest path t
termination_by structural nodes => nodes

end

end Traversal

namespace Sequence

/-- Visits everything that a player of the sequence can reach. -/
def traverse {H : Host} (root : Sequence H) : Traversal H :=
  Traversal.visit root .root [] {}

end Sequence

end Sequencer
