import Mathlib.Data.List.TakeWhile
import Sequencer.Number.Text
import Sequencer.Proofs.Number.Rounding

/-!
# Sequencer.Proofs.Number.Text

The literal form of a number reads back as the number.

* `Digits`: a run of decimal digits; `digitsValue_toDigits`: the digits of a number are worth it;
* `Decimal.ofText?_point`: how digits with a point between them are read;
  `Decimal.positional_whole`, `Decimal.positional_places`: how they are written;
* `BinaryFormat.exists_literalMagnitude`: the literal form of a magnitude is of that kind, and is
  rounded to the magnitude;
* `BinaryNumber.literalChars_cases`: what a number that equals itself is written as.
-/

namespace Sequencer

/-! ### Digits -/

/-- A run of at least one decimal digit. -/
structure Digits (cs : List Char) : Prop where
  /-- There is a digit. -/
  ne_nil : cs ≠ []
  /-- There is nothing else. -/
  isDigit : ∀ c ∈ cs, c.isDigit = true

theorem digits_toDigits (n : Nat) : Digits (Nat.toDigits 10 n) where
  ne_nil := Nat.toDigits_ne_nil
  isDigit := fun _ hc => Nat.isDigit_of_mem_toDigits (by decide) (by decide) hc

/-- A run of digits may be longer on either side. -/
theorem Digits.append {cs ds : List Char} (h : Digits cs) (hds : ∀ c ∈ ds, c.isDigit = true) :
    Digits (cs ++ ds) where
  ne_nil := by simp [h.ne_nil]
  isDigit := by
    intro c hc
    rcases List.mem_append.mp hc with hc | hc
    · exact h.isDigit c hc
    · exact hds c hc

theorem isDigit_of_mem_replicate {n : Nat} {c : Char} (h : c ∈ List.replicate n '0') :
    c.isDigit = true := by
  rw [List.eq_of_mem_replicate h]
  rfl

/-- A sign in front of digits is told from them. -/
theorem takeSign_signed (negative : Bool) {c : Char} (hminus : c ≠ '-') (hplus : c ≠ '+')
    (cs : List Char) : takeSign (BinaryNumber.signed negative (c :: cs)) = (negative, c :: cs) := by
  cases negative with
  | true => rfl
  | false =>
      rw [BinaryNumber.signed, if_neg (by simp), takeSign]
      all_goals simp_all

theorem digitsValue_eq (ds : List Char) : digitsValue ds = Nat.ofDigitChars 10 ds 0 :=
  Nat.ofDigitChars_eq_foldl.symm

/-- The digits of a number are worth the number. -/
@[simp] theorem digitsValue_toDigits (n : Nat) : digitsValue (Nat.toDigits 10 n) = n := by
  rw [digitsValue_eq, Nat.ofDigitChars_ten_toDigits]

theorem digitsValue_append_zeros (ds : List Char) (k : Nat) :
    digitsValue (ds ++ List.replicate k '0') = digitsValue ds * 10 ^ k := by
  rw [digitsValue_eq, Nat.ofDigitChars_append, Nat.ofDigitChars_replicate_zero, ← digitsValue_eq,
    Nat.mul_comm]

theorem digitsValue_zeros_append (k : Nat) (ds : List Char) :
    digitsValue (List.replicate k '0' ++ ds) = digitsValue ds := by
  rw [digitsValue_eq, Nat.ofDigitChars_append, Nat.ofDigitChars_replicate_zero, Nat.mul_zero,
    ← digitsValue_eq]

namespace Decimal

/-- Digits, a point and digits are read as a decimal with that many places. -/
theorem ofText?_point {whole fraction : List Char} (hwhole : Digits whole)
    (hfraction : ∀ c ∈ fraction, c.isDigit = true) :
    ofText? (whole ++ '.' :: fraction)
      = some ⟨digitsValue (whole ++ fraction), -(fraction.length : Int)⟩ := by
  have htake : (whole ++ '.' :: fraction).takeWhile Char.isDigit = whole := by
    rw [List.takeWhile_append_of_pos hwhole.isDigit]
    simp
  have hdrop : (whole ++ '.' :: fraction).dropWhile Char.isDigit = '.' :: fraction := by
    rw [List.dropWhile_append_of_pos hwhole.isDigit]
    simp
  have hall : fraction.takeWhile Char.isDigit = fraction := List.takeWhile_eq_self_iff.mpr hfraction
  have hnone : fraction.dropWhile Char.isDigit = [] := List.dropWhile_eq_nil_iff.mpr hfraction
  simp [ofText?, htake, hdrop, hall, hnone, hwhole.ne_nil]

/-- A whole number is written as its digits, with zeros for the power of ten. -/
theorem positional_whole (s k : Nat) :
    Digits (Decimal.mk s k).positional ∧ digitsValue (Decimal.mk s k).positional = s * 10 ^ k := by
  by_cases hs : s = 0
  · have hpositional : (Decimal.mk s k).positional = ['0'] := by
      simp [positional, digits, hs]
    rw [hpositional, hs, Nat.zero_mul]
    exact ⟨⟨by simp, by simp⟩, rfl⟩
  · have hpositional : (Decimal.mk s k).positional
        = Nat.toDigits 10 s ++ List.replicate k '0' := by
      simp [positional, digits, hs]
    rw [hpositional, digitsValue_append_zeros, digitsValue_toDigits]
    exact ⟨(digits_toDigits s).append fun _ => isDigit_of_mem_replicate, rfl⟩

/-- A number with decimal places is written with a point in front of so many of its digits. -/
theorem positional_places (s : Nat) {places : Nat} (hplaces : 0 < places) :
    ∃ whole fraction, (Decimal.mk s (-places)).positional = whole ++ '.' :: fraction ∧
      Digits whole ∧ Digits fraction ∧ digitsValue (whole ++ fraction) = s ∧
      fraction.length = places := by
  have hds : Digits (Nat.toDigits 10 s) := digits_toDigits s
  have hpositional : (Decimal.mk s (-places)).positional
      = if places < (Nat.toDigits 10 s).length then
          (Nat.toDigits 10 s).take ((Nat.toDigits 10 s).length - places)
            ++ '.' :: (Nat.toDigits 10 s).drop ((Nat.toDigits 10 s).length - places)
        else '0' :: '.' ::
          (List.replicate (places - (Nat.toDigits 10 s).length) '0' ++ Nat.toDigits 10 s) := by
    simp [positional, digits, Nat.ne_of_gt hplaces]
  rw [hpositional]
  split
  next hlt =>
    -- the point stands among the digits
    refine ⟨_, _, rfl, ⟨?_, ?_⟩, ⟨?_, ?_⟩, ?_, ?_⟩
    · rw [ne_eq, List.take_eq_nil_iff]
      simp [hds.ne_nil]
      omega
    · exact fun c hc => hds.isDigit c (List.mem_of_mem_take hc)
    · rw [ne_eq, List.drop_eq_nil_iff]
      omega
    · exact fun c hc => hds.isDigit c (List.mem_of_mem_drop hc)
    · rw [List.take_append_drop, digitsValue_toDigits]
    · rw [List.length_drop, Nat.sub_sub_self (Nat.le_of_lt hlt)]
  next hle =>
    -- it stands in front of them, with zeros in between
    have hfraction : Digits
        (List.replicate (places - (Nat.toDigits 10 s).length) '0' ++ Nat.toDigits 10 s) := by
      refine ⟨by simp [hds.ne_nil], fun c hc => ?_⟩
      rcases List.mem_append.mp hc with hc | hc
      · exact isDigit_of_mem_replicate hc
      · exact hds.isDigit c hc
    refine ⟨['0'], _, rfl, ⟨by simp, by simp⟩, hfraction, ?_, ?_⟩
    · rw [show ['0'] = List.replicate 1 '0' from rfl, digitsValue_zeros_append,
        digitsValue_zeros_append, digitsValue_toDigits]
    · rw [List.length_append, List.length_replicate, Nat.sub_add_cancel (Nat.not_lt.mp hle)]

end Decimal

/-! ### Magnitudes -/

namespace BinaryFormat

variable {f : BinaryFormat}

/-- Positional notation, with a point after all, reads back with the value of the decimal. -/
theorem exists_point (hf : f.fractionBits ≤ 2 ^ f.exponentBits) (d : Decimal) :
    ∃ whole fraction,
      (if d.positional.contains '.' then d.positional else d.positional ++ ['.', '0'])
        = whole ++ '.' :: fraction ∧
      Digits whole ∧ Digits fraction ∧
      f.ofDecimal ⟨digitsValue (whole ++ fraction), -(fraction.length : Int)⟩ = f.ofDecimal d := by
  obtain ⟨s, e⟩ := d
  by_cases hsign : 0 ≤ e
  · -- a zero is put behind the point, and the power of ten grows by one
    obtain ⟨k, rfl⟩ : ∃ k : Nat, e = k := ⟨e.toNat, by omega⟩
    obtain ⟨hwhole, hvalue⟩ := Decimal.positional_whole s k
    generalize (Decimal.mk s k).positional = whole at hwhole hvalue ⊢
    have hpoint : whole.contains '.' = false := by
      rw [← Bool.not_eq_true, List.contains_iff_mem]
      exact fun hmem => absurd (hwhole.isDigit _ hmem) (by decide)
    refine ⟨whole, ['0'], ?_, hwhole, ⟨by simp, by simp⟩, ?_⟩
    · rw [hpoint]
      rfl
    · have hlast := digitsValue_append_zeros whole 1
      rw [hvalue, Nat.pow_one, Nat.mul_assoc, ← Nat.pow_succ] at hlast
      rw [show whole ++ ['0'] = whole ++ List.replicate 1 '0' from rfl, hlast,
        ← ofDecimal_shift hf s (k + 1) k]
      congr 2
      simp only [List.length_singleton]
      omega
  · obtain ⟨places, rfl, hplaces⟩ : ∃ places : Nat, e = -places ∧ 0 < places :=
      ⟨(-e).toNat, by omega, by omega⟩
    obtain ⟨whole, fraction, hpositional, hwhole, hfraction, hvalue, hlength⟩ :=
      Decimal.positional_places s hplaces
    refine ⟨whole, fraction, ?_, hwhole, hfraction, by rw [hvalue, hlength]⟩
    rw [hpositional, if_pos (by simp)]

/-- The literal form of a finite magnitude: digits with a point between them, rounded to the
magnitude. -/
theorem exists_literalMagnitude (hf : f.fractionBits ≤ 2 ^ f.exponentBits) {magnitude : Nat}
    (h : magnitude < f.infinity) :
    ∃ whole fraction, f.literalMagnitude magnitude = whole ++ '.' :: fraction ∧
      Digits whole ∧ Digits fraction ∧
      f.ofDecimal ⟨digitsValue (whole ++ fraction), -(fraction.length : Int)⟩ = magnitude := by
  obtain ⟨whole, fraction, htext, hwhole, hfraction, hvalue⟩ :=
    exists_point hf (f.shortest magnitude)
  exact ⟨whole, fraction, htext, hwhole, hfraction, hvalue.trans (ofDecimal_shortest hf h)⟩

end BinaryFormat

/-! ### Numbers -/

namespace BinaryNumber

variable {f : BinaryFormat}

/-- A number equals itself unless it is a NaN. -/
theorem beq_self_iff (x : BinaryNumber f) :
    (x == x) = true ↔ ∀ negative, x.reading ≠ .nan negative := by
  change BinaryNumber.beq x x = true ↔ _
  rw [BinaryNumber.beq]
  split <;> simp_all

/-- Sign and magnitude make up the pattern again. -/
theorem ofMagnitude_of_bits (x : BinaryNumber f) :
    ofMagnitude (decide (f.signBit ≤ x.bits.toNat)) (x.bits.toNat % f.signBit) = x := by
  have hlt : x.bits.toNat < 2 * f.signBit := by
    refine Nat.lt_of_lt_of_eq x.bits.isLt ?_
    rw [BinaryFormat.width, BinaryFormat.signBit, Nat.pow_eq, ← Nat.pow_succ']
    congr 1
    omega
  have hpattern : f.pattern (decide (f.signBit ≤ x.bits.toNat)) (x.bits.toNat % f.signBit)
      = x.bits.toNat := by
    rw [BinaryFormat.pattern]
    by_cases hsign : f.signBit ≤ x.bits.toNat
    · rw [decide_eq_true hsign, if_pos rfl, Nat.mod_eq_sub_mod hsign, Nat.mod_eq_of_lt (by omega)]
      omega
    · rw [decide_eq_false hsign, if_neg (by simp), Nat.mod_eq_of_lt (by omega)]
  rw [ofMagnitude, hpattern]
  cases x
  simp

/-- **What a number is written as** that equals itself: an infinity by its name, anything else as
digits with a point between them, which are rounded to the number. -/
theorem literalChars_cases (hf : f.fractionBits ≤ 2 ^ f.exponentBits) {x : BinaryNumber f}
    (h : (x == x) = true) :
    (∃ negative, x.literalChars = signed negative ['i', 'n', 'f'] ∧
      x = ofMagnitude negative f.infinity) ∨
    (∃ negative whole fraction, x.literalChars = signed negative (whole ++ '.' :: fraction) ∧
      Digits whole ∧ Digits fraction ∧
      x = ofDecimal negative ⟨digitsValue (whole ++ fraction), -(fraction.length : Int)⟩) := by
  have hx := ofMagnitude_of_bits x
  have hnan := (beq_self_iff x).mp h
  generalize hnegative : decide (f.signBit ≤ x.bits.toNat) = negative at hx
  generalize hmagnitude : x.bits.toNat % f.signBit = magnitude at hx
  have hreading : x.reading
      = if magnitude < f.infinity then .finite negative magnitude
        else if magnitude = f.infinity then .infinite negative
        else .nan negative := by
    rw [reading, BinaryFormat.read, hnegative, hmagnitude]
  rcases Nat.lt_trichotomy magnitude f.infinity with hlt | heq | hgt
  · obtain ⟨whole, fraction, htext, hwhole, hfraction, hvalue⟩ :=
      BinaryFormat.exists_literalMagnitude hf hlt
    refine .inr ⟨negative, whole, fraction, ?_, hwhole, hfraction, ?_⟩
    · rw [literalChars, write, hreading, if_pos hlt, ← htext]
    · rw [ofDecimal, hvalue, hx]
  · refine .inl ⟨negative, ?_, by rw [← heq, hx]⟩
    rw [literalChars, write, hreading, if_neg (by omega), if_pos heq]
  · rw [if_neg (by omega), if_neg (by omega)] at hreading
    exact absurd hreading (hnan negative)

end BinaryNumber

end Sequencer
