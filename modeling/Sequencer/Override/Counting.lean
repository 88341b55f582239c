/-!
# Sequencer.Override.Counting

How a registry counts.

Indices have 32 bits. What becomes of a sum that does not fit is decided where the program is built:
it wraps around, or it ends the program. So what counts is written once, for any arithmetic and the
effects of its sums.

* `Counting`: one more than a number;
* `Counting.wrapping`, `Counting.checked`: sums of 32 bits;
* `Counting.unbounded`: sums that always fit, with which the others agree while theirs do.
-/

namespace Sequencer

/-- The first number that 32 bits do not hold, `2 ^ 32`. -/
def limit32 : Nat := 4294967296

/-- How numbers are counted on. -/
structure Counting (m : Type → Type) where
  /-- One more than a number. -/
  succ : Nat → m Nat

namespace Counting

/-- Sums wrap around. -/
def wrapping : Counting Id := ⟨fun n => (n + 1) % limit32⟩

/-- Nothing is left of a program whose sum does not fit. -/
def checked : Counting Option := ⟨fun n => if n + 1 < limit32 then some (n + 1) else none⟩

/-- All sums fit. -/
def unbounded : Counting Id := ⟨fun n => n + 1⟩

end Counting

end Sequencer
