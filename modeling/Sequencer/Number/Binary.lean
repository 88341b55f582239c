/-!
# Sequencer.Number.Binary

Binary floating-point formats, seen as bit patterns. A *magnitude* is the pattern without its sign
bit. Every finite magnitude is a whole number of *units*, one unit being the smallest positive
value of the format, so that values and their midpoints are compared in `Nat`, exactly.

* `BinaryFormat.units`: the value of a magnitude, in units;
* `BinaryFormat.nearest`: the magnitude nearest to a fraction of units, ties to the even pattern;
* `BinaryFormat.nearest_units`: a value that the format holds is its own nearest magnitude.
-/

namespace Sequencer

/-- The quotient `n / d` rounded to the nearest whole number, a half going to the even one. -/
def roundHalfEven (n d : Nat) : Nat :=
  let quotient := n / d
  let remainder := n % d
  if 2 * remainder < d then quotient
  else if d < 2 * remainder then quotient + 1
  else quotient + quotient % 2

/-- A whole quotient is left alone. -/
theorem roundHalfEven_mul_right (m d : Nat) (hd : 0 < d) : roundHalfEven (m * d) d = m := by
  simp [roundHalfEven, Nat.mul_div_cancel _ hd, hd]

/-- A binary format: a sign bit, then the exponent field, then the fraction field. -/
structure BinaryFormat where
  /-- Bits of the stored fraction. -/
  fractionBits : Nat
  /-- Bits of the stored exponent. -/
  exponentBits : Nat
  deriving DecidableEq, Repr

namespace BinaryFormat

/-- The format of a 32-bit number. -/
def single : BinaryFormat := ⟨23, 8⟩

/-- The format of a 64-bit number. -/
def double : BinaryFormat := ⟨52, 11⟩

/-- There are `2 ^ scale` units in one. -/
def scale (f : BinaryFormat) : Nat :=
  Nat.pow 2 (f.exponentBits - 1) - 2 + f.fractionBits

/-- The magnitude of infinity; the finite magnitudes are those below it. -/
def infinity (f : BinaryFormat) : Nat :=
  (Nat.pow 2 f.exponentBits - 1) * Nat.pow 2 f.fractionBits

/-- The number of bits of a pattern. -/
def width (f : BinaryFormat) : Nat := 1 + f.exponentBits + f.fractionBits

/-- The magnitude of the NaN that arithmetic gives. -/
def quietNaN (f : BinaryFormat) : Nat :=
  f.infinity + Nat.pow 2 (f.fractionBits - 1)

/-- The sign bit's weight. -/
def signBit (f : BinaryFormat) : Nat :=
  Nat.pow 2 (f.exponentBits + f.fractionBits)

/-- The value of a finite magnitude, in units. -/
def units (f : BinaryFormat) (magnitude : Nat) : Nat :=
  let exponent := magnitude / Nat.pow 2 f.fractionBits
  let fraction := magnitude % Nat.pow 2 f.fractionBits
  if exponent = 0 then fraction
  else (Nat.pow 2 f.fractionBits + fraction) * Nat.pow 2 (exponent - 1)

/-- The magnitude nearest to `n / d` units. Past the last binade it is infinity's. -/
def nearest (f : BinaryFormat) (n d : Nat) : Nat :=
  let shift := Nat.log2 (n / d) - f.fractionBits
  min (roundHalfEven n (d * Nat.pow 2 shift) + shift * Nat.pow 2 f.fractionBits) f.infinity

/-- What a bit pattern stands for. -/
inductive Reading
  /-- Not a number. -/
  | nan (negative : Bool)
  /-- An infinity. -/
  | infinite (negative : Bool)
  /-- A finite value, by its magnitude. -/
  | finite (negative : Bool) (magnitude : Nat)
  deriving Repr, DecidableEq

/-- Splits a bit pattern into sign and magnitude. -/
def read (f : BinaryFormat) (bits : Nat) : Reading :=
  let negative := decide (f.signBit ≤ bits)
  let magnitude := bits % f.signBit
  if magnitude < f.infinity then .finite negative magnitude
  else if magnitude = f.infinity then .infinite negative
  else .nan negative

/-- The bit pattern of a signed magnitude. -/
def pattern (f : BinaryFormat) (negative : Bool) (magnitude : Nat) : Nat :=
  if negative then f.signBit + magnitude else magnitude

/-- The logarithm of a number with a leading bit, shifted. -/
theorem log2_shifted {bits r : Nat} (hr : r < Nat.pow 2 bits) (shift : Nat) :
    Nat.log2 ((Nat.pow 2 bits + r) * Nat.pow 2 shift) = bits + shift := by
  have hpos : 0 < Nat.pow 2 bits := Nat.two_pow_pos _
  have hshift : 0 < Nat.pow 2 shift := Nat.two_pow_pos _
  apply (Nat.log2_eq_iff (Nat.ne_of_gt (Nat.mul_pos (by omega) hshift))).2
  constructor
  · rw [Nat.pow_add]
    exact Nat.mul_le_mul_right _ (Nat.le_add_right _ _)
  · rw [show bits + shift + 1 = bits + 1 + shift by omega, Nat.pow_add, Nat.pow_succ, Nat.mul_two]
    exact (Nat.mul_lt_mul_right hshift).2 (Nat.add_lt_add_left hr _)

/-- Rounding changes no value that the format holds. -/
theorem nearest_units (f : BinaryFormat) {magnitude : Nat} (h : magnitude < f.infinity) :
    f.nearest (f.units magnitude) 1 = magnitude := by
  have hpos : 0 < Nat.pow 2 f.fractionBits := Nat.two_pow_pos _
  have hsplit : Nat.pow 2 f.fractionBits * (magnitude / Nat.pow 2 f.fractionBits)
      + magnitude % Nat.pow 2 f.fractionBits = magnitude := Nat.div_add_mod ..
  have hlt : magnitude % Nat.pow 2 f.fractionBits < Nat.pow 2 f.fractionBits := Nat.mod_lt _ hpos
  have hlog := log2_shifted hlt (magnitude / Nat.pow 2 f.fractionBits - 1)
  have hsmall : Nat.log2 (magnitude % Nat.pow 2 f.fractionBits) ≤ f.fractionBits := by
    by_cases hr : magnitude % Nat.pow 2 f.fractionBits = 0
    · rw [hr]
      exact Nat.zero_le _
    · exact Nat.le_of_lt ((Nat.log2_lt hr).2 hlt)
  unfold nearest units
  simp only [Nat.div_one, Nat.one_mul]
  generalize Nat.pow 2 f.fractionBits = w at *
  generalize magnitude / w = e at *
  generalize magnitude % w = r at *
  by_cases h0 : e = 0
  · subst h0
    have hround := roundHalfEven_mul_right r 1 (by decide)
    rw [Nat.mul_one] at hround
    simp only [if_true, Nat.sub_eq_zero_of_le hsmall, Nat.zero_mul, Nat.add_zero]
    rw [show Nat.pow 2 0 = 1 from rfl, hround]
    simp only [Nat.mul_zero, Nat.zero_add] at hsplit
    omega
  · have hround := roundHalfEven_mul_right (w + r) (Nat.pow 2 (e - 1)) (Nat.two_pow_pos _)
    rw [if_neg h0, hlog, Nat.add_sub_cancel_left, hround]
    obtain ⟨k, rfl⟩ := Nat.exists_eq_succ_of_ne_zero h0
    rw [Nat.mul_succ, Nat.mul_comm w k] at hsplit
    simp only [Nat.succ_sub_one]
    omega

end BinaryFormat

end Sequencer
