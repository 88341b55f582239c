import Sequencer.Cursor

/-!
# Sequencer.Proofs.Cursor

Where the moves of a cursor lead. Positions of a list that is not longer than the highest index are
reached exactly, and a move forward never leads back.
-/

namespace Sequencer

namespace Cursor

variable {c : Cursor} {i count : Nat} {n : Int}

theorem position?_eq_some : c.position? = some i ↔ c.index = i := by
  unfold position?
  split
  · rw [Option.some.injEq]; omega
  · simp only [reduceCtorEq, false_iff]; omega

theorem set_index (c : Cursor) (h : (i : Int) ≤ highest) : (c.set i).index = i := by
  simp only [set, distance]
  omega

/-- A position within the range of indices is reached from any cursor. -/
theorem set_eq (c : Cursor) (h : (i : Int) ≤ highest) : c.set i = ⟨i⟩ := by
  have := c.set_index h
  cases hc : c.set i
  simp_all

/-- A move forward leads to the sum, or to the highest index. -/
theorem advance_index_eq (h₀ : 0 ≤ c.index) :
    (c.advance count).index = min highest (c.index + count) := by
  simp only [advance, clamp, distance, lowest, highest]
  rcases Int.le_total 9223372036854775807 count with h | h
  · rw [Int.min_eq_left h]; omega
  · rw [Int.min_eq_right h]; omega

theorem advance_index (h₀ : 0 ≤ c.index) (h : c.index + count ≤ highest) :
    (c.advance count).index = c.index + count := by
  rw [advance_index_eq h₀, Int.min_eq_right h]

/-- A move forward leads at least to where a shorter one would. -/
theorem le_advance (h₀ : 0 ≤ c.index) (h : n ≤ c.index + count) (hn : n ≤ highest) :
    n ≤ (c.advance count).index := by
  rw [advance_index_eq h₀]
  exact Int.le_min.mpr ⟨hn, h⟩

/-- One step forward. -/
theorem le_advance_one (h : n ≤ c.index + 1) (h₀ : 0 ≤ n) (hn : n ≤ highest) :
    n ≤ (c.advance 1).index := by
  simp only [advance, clamp, distance, lowest, highest] at *
  omega

end Cursor

end Sequencer
