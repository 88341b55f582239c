/-!
# Sequencer.Cursor

The current node index of a running sequence. Nodes that control the flow move it, and the sequence
goes on at the next index when the current node completes; an index that is negative or past the
end finishes the sequence.

Indices are kept in the signed 64-bit range. A distance beyond its upper end counts as that end,
and so does a result beyond either end.
-/

namespace Sequencer

/-- A node index, possibly out of range. -/
structure Cursor where
  /-- The index. -/
  index : Int := 0
  deriving DecidableEq, Repr, Inhabited

namespace Cursor

/-- The lowest index. -/
def lowest : Int := -9223372036854775808

/-- The highest index. -/
def highest : Int := 9223372036854775807

/-- Brings an index into range. -/
def clamp (n : Int) : Int := max lowest (min highest n)

/-- The cursor at the first node. -/
def start : Cursor := {}

/-- The index as a position in a list, if it is not negative. -/
def position? (c : Cursor) : Option Nat :=
  if 0 ≤ c.index then some c.index.toNat else none

/-- A distance, cut to the range of indices. -/
def distance (count : Nat) : Int := min highest count

/-- The cursor at an index. -/
def set (_ : Cursor) (index : Nat) : Cursor := ⟨distance index⟩

/-- Moves forward. -/
def advance (c : Cursor) (count : Nat) : Cursor := ⟨clamp (c.index + distance count)⟩

/-- Moves back. -/
def rewind (c : Cursor) (count : Nat) : Cursor := ⟨clamp (c.index - distance count)⟩

end Cursor

end Sequencer
