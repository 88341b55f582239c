/-!
# Sequencer.LoopCount

How often a nested sequence runs. Authors write a positive count, or `-1` for no end. A count fits
into the unsigned 32-bit range, in which completed passes are counted.
-/

namespace Sequencer

/-- A positive number of passes, or passes without end. -/
inductive LoopCount
  /-- A fixed number of passes. -/
  | times (count : Nat) (inRange : 0 < count ∧ count ≤ 4294967295 := by decide)
  /-- Pass after pass until the player stops. -/
  | forever
  deriving DecidableEq

namespace LoopCount

/-- A single pass. -/
def once : LoopCount := .times 1

-- Named, for the sequences of several modules to share.
theorem inRange_two : 0 < 2 ∧ 2 ≤ 4294967295 := by decide

theorem inRange_three : 0 < 3 ∧ 3 ≤ 4294967295 := by decide

/-- The given number of passes; none, or more than can be counted, is no loop count. -/
def times? (count : Nat) : Option LoopCount :=
  if h : 0 < count ∧ count ≤ 4294967295 then some (.times count h) else none

/-- Reads what an author writes. -/
def ofAuthored? (n : Int) : Option LoopCount :=
  if n = -1 then some .forever else times? n.toNat

/-- What an author writes; counts past the range of a 32-bit integer are cut to its end. -/
def authored : LoopCount → Int
  | times count _ => min count 2147483647
  | forever => -1

instance : ToString LoopCount where
  toString
    | times count _ => "x" ++ toString count
    | forever => "loop"

end LoopCount

end Sequencer
