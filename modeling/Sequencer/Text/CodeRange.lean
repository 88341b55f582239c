/-!
# Sequencer.Text.CodeRange

Sets of characters given as lists of code point ranges.
-/

namespace Sequencer.Text

/-- Does the code point lie in one of the ranges, both ends included? -/
def inRanges (ranges : List (Nat × Nat)) (code : Nat) : Bool :=
  ranges.any fun (low, high) => low ≤ code && code ≤ high

end Sequencer.Text
