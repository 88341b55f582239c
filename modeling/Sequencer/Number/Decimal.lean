import Sequencer.Number.Binary

/-!
# Sequencer.Number.Decimal

Decimal numbers `significand * 10 ^ exponent`, how they are laid out as text, and how they meet a
binary format: `BinaryFormat.ofDecimal` rounds a decimal to the nearest magnitude, and
`BinaryFormat.shortest` finds the decimal with the fewest digits that rounds to a given magnitude.

The search for the fewest digits starts from the exact decimal value of the magnitude, which is
finite because two divides ten, and looks at coarser and coarser grids from the coarse end. The
finest grid holds the value itself, so the search always ends with a decimal that reads back
(`BinaryFormat.ofDecimal_refine`).
-/

namespace Sequencer

/-- A non-negative decimal number, `significand * 10 ^ exponent`. -/
structure Decimal where
  /-- The digits, as a whole number. -/
  significand : Nat
  /-- The power of ten. -/
  exponent : Int
  deriving Repr, DecidableEq

namespace Decimal

/-- The digits of a whole number, the most significant first. -/
def digits (n : Nat) : List Char :=
  Nat.toDigits 10 n

/-- Drops the last `zeros` zeros at most, keeping the value. -/
def trim : Nat → Decimal → Decimal
  | 0, d => d
  | fuel + 1, d =>
    if d.significand ≠ 0 ∧ d.significand % 10 = 0 then
      trim fuel ⟨d.significand / 10, d.exponent + 1⟩
    else d

/-- Positional notation, padded with zeros on either side as far as the point needs. -/
def positional (d : Decimal) : List Char :=
  let ds := digits d.significand
  if 0 ≤ d.exponent then
    if d.significand = 0 then ds else ds ++ List.replicate d.exponent.toNat '0'
  else
    let places := (-d.exponent).toNat
    if places < ds.length then
      ds.take (ds.length - places) ++ '.' :: ds.drop (ds.length - places)
    else '0' :: '.' :: (List.replicate (places - ds.length) '0' ++ ds)

/-- One digit before the point, and the power of ten after an `e`. -/
def scientific (d : Decimal) : List Char :=
  let ds := digits d.significand
  let power := d.exponent + (ds.length - 1 : Nat)
  let fraction := ds.drop 1
  ds.take 1 ++ (if fraction.isEmpty then [] else '.' :: fraction) ++ 'e' :: (toString power).toList

/-- The power of ten of the first digit. -/
def magnitude (d : Decimal) : Int :=
  d.exponent + ((digits d.significand).length - 1 : Nat)

end Decimal

namespace BinaryFormat

/-- The magnitude nearest to a decimal number. A power of ten beyond `2 ^ exponentBits` is past
every finite magnitude, and one that far below the significand's size rounds to zero; both are
answered without computing the power. -/
def ofDecimal (f : BinaryFormat) (d : Decimal) : Nat :=
  if d.significand = 0 then 0
  else if (Nat.pow 2 f.exponentBits : Int) < d.exponent then f.infinity
  else if d.exponent < -(Nat.pow 2 f.exponentBits + d.significand.log2 : Int) then 0
  else if 0 ≤ d.exponent then
    f.nearest (d.significand * Nat.pow 10 d.exponent.toNat * Nat.pow 2 f.scale) 1
  else
    f.nearest (d.significand * Nat.pow 2 f.scale) (Nat.pow 10 (-d.exponent).toNat)

/-- The exact value of a finite magnitude: a unit is `5 ^ scale / 10 ^ scale`. -/
def exactDecimal (f : BinaryFormat) (magnitude : Nat) : Decimal :=
  ⟨f.units magnitude * Nat.pow 5 f.scale, -(f.scale : Int)⟩

/-- Of the two points of the grid with `drop` digits fewer that enclose an exact value, the nearer
one that reads back as `magnitude`; a tie goes up. -/
def gridPoint? (f : BinaryFormat) (magnitude : Nat) (exact : Decimal) (drop : Nat) :
    Option Decimal :=
  let step := Nat.pow 10 drop
  let below : Decimal := ⟨exact.significand / step, exact.exponent + drop⟩
  let above : Decimal := ⟨exact.significand / step + 1, exact.exponent + drop⟩
  if 2 * (exact.significand % step) < step then
    if f.ofDecimal below = magnitude then some below
    else if f.ofDecimal above = magnitude then some above
    else none
  else
    if f.ofDecimal above = magnitude then some above
    else if f.ofDecimal below = magnitude then some below
    else none

/-- The first grid point that reads back, from the grid with `drop` digits fewer than the exact
value down to the exact value. -/
def refine (f : BinaryFormat) (magnitude : Nat) (exact : Decimal) : Nat → Decimal
  | 0 => exact
  | drop + 1 => (f.gridPoint? magnitude exact (drop + 1)).getD (refine f magnitude exact drop)

/-- The decimal with the fewest digits that reads back as a finite magnitude, without trailing
zeros; zero is `0`. -/
def shortest (f : BinaryFormat) (magnitude : Nat) : Decimal :=
  if magnitude = 0 then ⟨0, 0⟩
  else
    let exact := f.exactDecimal magnitude
    let size := (Decimal.digits exact.significand).length
    (f.refine magnitude exact (size - 1)).trim size

/-- The value of a finite magnitude as a whole number of `10 ^ (-places)`, a half going to the even
neighbour. -/
def fixedPlaces (f : BinaryFormat) (magnitude places : Nat) : Nat :=
  roundHalfEven (f.units magnitude * Nat.pow 10 places) (Nat.pow 2 f.scale)

/-- Only points that read back are taken from a grid. -/
theorem ofDecimal_of_gridPoint? {f : BinaryFormat} {magnitude : Nat} {exact d : Decimal}
    {drop : Nat} (h : f.gridPoint? magnitude exact drop = some d) : f.ofDecimal d = magnitude := by
  unfold gridPoint? at h
  simp only at h
  split at h <;> split at h <;> (try split at h) <;> simp_all

/-- Reading back survives the whole search if the exact value reads back. -/
theorem ofDecimal_refine {f : BinaryFormat} {magnitude : Nat} {exact : Decimal}
    (h : f.ofDecimal exact = magnitude) (drop : Nat) :
    f.ofDecimal (f.refine magnitude exact drop) = magnitude := by
  induction drop with
  | zero => exact h
  | succ drop ih =>
    unfold refine
    cases hg : f.gridPoint? magnitude exact (drop + 1) with
    | none => simpa using ih
    | some d => simpa using ofDecimal_of_gridPoint? hg

end BinaryFormat

end Sequencer
