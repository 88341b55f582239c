import Mathlib.Algebra.Group.Nat.Defs
import Sequencer.Number.Decimal

/-!
# Sequencer.Proofs.Number.Rounding

Rounding a decimal gives what its value deserves, however the decimal is written.

* `BinaryFormat.nearest_congr`: the nearest magnitude of a fraction depends on its value alone;
* `BinaryFormat.ofDecimal_eq_nearest`: a decimal is rounded as the fraction that it stands for. The
  answers that are given without computing a power are those of the computation;
* `BinaryFormat.ofDecimal_shift`: so digits may be traded for a power of ten;
* `BinaryFormat.ofDecimal_shortest`: the decimal with the fewest digits that reads back does read
  back.
-/

namespace Sequencer

/-- A rounded quotient depends on the value of the fraction alone. -/
theorem roundHalfEven_mul_mul (n d : Nat) {k : Nat} (hk : 0 < k) :
    roundHalfEven (n * k) (d * k) = roundHalfEven n d := by
  have hquotient : n * k / (d * k) = n / d := Nat.mul_div_mul_right n d hk
  have hremainder : n * k % (d * k) = n % d * k := Nat.mul_mod_mul_right k n d
  simp only [roundHalfEven, hquotient, hremainder, ← Nat.mul_assoc, Nat.mul_lt_mul_right hk]

namespace BinaryFormat

variable {f : BinaryFormat}

theorem nearest_mul_mul (f : BinaryFormat) (n d : Nat) {k : Nat} (hk : 0 < k) :
    f.nearest (n * k) (d * k) = f.nearest n d := by
  simp only [nearest, Nat.mul_div_mul_right _ _ hk, Nat.mul_right_comm d k,
    roundHalfEven_mul_mul _ _ hk]

/-- Fractions of one value have the same nearest magnitude. -/
theorem nearest_congr (f : BinaryFormat) {n d n' d' : Nat} (hd : 0 < d) (hd' : 0 < d')
    (h : n * d' = n' * d) : f.nearest n d = f.nearest n' d' := by
  calc f.nearest n d = f.nearest (n * d') (d * d') := (f.nearest_mul_mul n d hd').symm
    _ = f.nearest (n' * d) (d' * d) := by rw [h, Nat.mul_comm d]
    _ = f.nearest n' d' := f.nearest_mul_mul n' d' hd

/-- Past the last binade, everything is infinity. -/
theorem nearest_eq_infinity {n d : Nat}
    (h : 2 ^ f.exponentBits + f.fractionBits ≤ (n / d).log2) : f.nearest n d = f.infinity := by
  refine Nat.min_eq_right (Nat.le_add_left_of_le ?_)
  exact Nat.mul_le_mul_right _ (by simp only [Nat.pow_eq]; omega)

/-- Less than half a unit is rounded to nothing. -/
theorem nearest_eq_zero {n d : Nat} (h : 2 * n < d) : f.nearest n d = 0 := by
  have hquotient : n / d = 0 := Nat.div_eq_of_lt (by omega)
  have hremainder : n % d = n := Nat.mod_eq_of_lt (by omega)
  simp [nearest, roundHalfEven, hquotient, hremainder, h]

theorem two_pow_le_ten_pow (k : Nat) : 2 ^ (3 * k) ≤ 10 ^ k := by
  rw [Nat.pow_mul]
  exact Nat.pow_le_pow_left (by decide) k

/-- A decimal is rounded as the fraction that it stands for, in any format whose exponents are not
too few for its digits. -/
theorem ofDecimal_eq_nearest (hf : f.fractionBits ≤ 2 ^ f.exponentBits) (d : Decimal) :
    f.ofDecimal d
      = f.nearest (d.significand * 10 ^ d.exponent.toNat * 2 ^ f.scale)
          (10 ^ (-d.exponent).toNat) := by
  obtain ⟨s, e⟩ := d
  have hpow : 0 < 2 ^ f.scale := Nat.two_pow_pos _
  simp only [ofDecimal, Nat.pow_eq]
  by_cases hzero : s = 0
  · rw [if_pos hzero, nearest_eq_zero]
    simp only [hzero, Nat.zero_mul, Nat.mul_zero]
    exact Nat.pow_pos (by decide)
  rw [if_neg hzero]
  by_cases hbig : (2 ^ f.exponentBits : Nat) < e
  · rw [if_pos hbig, nearest_eq_infinity]
    rw [show (-e).toNat = 0 by omega, Nat.pow_zero, Nat.div_one]
    have hle : 2 ^ (3 * e.toNat) ≤ s * 10 ^ e.toNat * 2 ^ f.scale := by
      calc 2 ^ (3 * e.toNat) ≤ 10 ^ e.toNat := two_pow_le_ten_pow _
        _ ≤ s * 10 ^ e.toNat := Nat.le_mul_of_pos_left _ (Nat.pos_of_ne_zero hzero)
        _ ≤ s * 10 ^ e.toNat * 2 ^ f.scale := Nat.le_mul_of_pos_right _ hpow
    have hlog := (Nat.le_log2 (Nat.ne_of_gt (Nat.lt_of_lt_of_le (Nat.two_pow_pos _) hle))).mpr hle
    omega
  rw [if_neg hbig]
  by_cases hsmall : e < -(((2 ^ f.exponentBits : Nat) : Int) + (s.log2 : Int))
  · rw [if_pos hsmall, nearest_eq_zero]
    rw [show e.toNat = 0 by omega, Nat.pow_zero, Nat.mul_one]
    have hhalf : 2 ^ (f.exponentBits - 1) ≤ 2 ^ f.exponentBits :=
      Nat.pow_le_pow_right (by decide) (Nat.sub_le _ _)
    calc 2 * (s * 2 ^ f.scale) < 2 * (2 ^ (s.log2 + 1) * 2 ^ f.scale) :=
          Nat.mul_lt_mul_of_pos_left (Nat.mul_lt_mul_of_pos_right Nat.lt_log2_self hpow)
            (by decide)
      _ = 2 ^ (s.log2 + 2 + f.scale) := by rw [← Nat.pow_add, ← Nat.pow_succ']; congr 1; omega
      _ ≤ 2 ^ (3 * (-e).toNat) := by
          refine Nat.pow_le_pow_right (by decide) ?_
          simp only [scale, Nat.pow_eq]
          omega
      _ ≤ 10 ^ (-e).toNat := two_pow_le_ten_pow _
  rw [if_neg hsmall]
  by_cases hsign : 0 ≤ e
  · rw [if_pos hsign, show (-e).toNat = 0 by omega, Nat.pow_zero]
  · rw [if_neg hsign, show e.toNat = 0 by omega, Nat.pow_zero, Nat.mul_one]

/-- Zeros behind the digits may be traded for a power of ten. -/
theorem ofDecimal_shift (hf : f.fractionBits ≤ 2 ^ f.exponentBits) (s k : Nat) (e : Int) :
    f.ofDecimal ⟨s * 10 ^ k, e - k⟩ = f.ofDecimal ⟨s, e⟩ := by
  rw [ofDecimal_eq_nearest hf, ofDecimal_eq_nearest hf]
  refine f.nearest_congr (Nat.pow_pos (by decide)) (Nat.pow_pos (by decide)) ?_
  have hpow : 10 ^ k * 10 ^ (e - k).toNat * 10 ^ (-e).toNat
      = 10 ^ e.toNat * 10 ^ (-(e - k)).toNat := by
    rw [← Nat.pow_add, ← Nat.pow_add, ← Nat.pow_add]
    congr 1
    omega
  calc s * 10 ^ k * 10 ^ (e - k).toNat * 2 ^ f.scale * 10 ^ (-e).toNat
      = s * (10 ^ k * 10 ^ (e - k).toNat * 10 ^ (-e).toNat) * 2 ^ f.scale := by
        simp only [Nat.mul_assoc, Nat.mul_comm (2 ^ f.scale)]
    _ = s * 10 ^ e.toNat * 2 ^ f.scale * 10 ^ (-(e - k)).toNat := by
        rw [hpow]
        simp only [Nat.mul_assoc, Nat.mul_comm (2 ^ f.scale)]

/-- The exact value of a magnitude reads back. -/
theorem ofDecimal_exactDecimal (hf : f.fractionBits ≤ 2 ^ f.exponentBits) {magnitude : Nat}
    (h : magnitude < f.infinity) : f.ofDecimal (f.exactDecimal magnitude) = magnitude := by
  rw [ofDecimal_eq_nearest hf]
  refine Eq.trans (f.nearest_congr (Nat.pow_pos (by decide)) Nat.one_pos ?_) (f.nearest_units h)
  have hpositive : (-(f.scale : Int)).toNat = 0 := by omega
  have hnegative : (-(-(f.scale : Int))).toNat = f.scale := by omega
  simp only [exactDecimal, Nat.pow_eq]
  rw [hpositive, hnegative, Nat.pow_zero, Nat.mul_one, Nat.mul_one, Nat.mul_assoc, ← Nat.mul_pow]

/-- Dropping zeros at the end changes nothing. -/
theorem ofDecimal_trim (hf : f.fractionBits ≤ 2 ^ f.exponentBits) (fuel : Nat) (d : Decimal) :
    f.ofDecimal (d.trim fuel) = f.ofDecimal d := by
  induction fuel generalizing d with
  | zero => rfl
  | succ fuel ih =>
      rw [Decimal.trim]
      split
      next hzero =>
        rw [ih, ← ofDecimal_shift hf (d.significand / 10) 1 (d.exponent + 1), Nat.pow_one,
          Nat.div_mul_cancel (Nat.dvd_of_mod_eq_zero hzero.2)]
        congr 2
        omega
      next => rfl

/-- **The shortest form reads back.** -/
theorem ofDecimal_shortest (hf : f.fractionBits ≤ 2 ^ f.exponentBits) {magnitude : Nat}
    (h : magnitude < f.infinity) : f.ofDecimal (f.shortest magnitude) = magnitude := by
  rw [shortest]
  split
  next hzero => rw [hzero]; rfl
  next => rw [ofDecimal_trim hf, ofDecimal_refine (ofDecimal_exactDecimal hf h)]

end BinaryFormat

end Sequencer
