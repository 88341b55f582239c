import Sequencer.Number.Decimal

/-!
# Sequencer.Number.Text

Numbers kept as bit patterns, their written forms, and how they are read. A pattern keeps what
arithmetic does not tell apart, such as the sign of a NaN.

* `BinaryNumber.plain`: the fewest digits that read back, never an exponent, nothing after a whole
  number;
* `BinaryNumber.literalChars`: the same, with `.0` after a whole number;
* `BinaryNumber.detailed`: as the literal form from `1e-4` up to `1e16`, with an exponent outside;
* `BinaryNumber.fixed`: a given number of places, the exact value rounded with ties to even.

All four write `NaN`, `inf` and a minus sign in front of every negative value, zero included. The
literal form alone has the sign of a NaN. `Decimal.ofText?` reads decimal text and
`BinaryNumber.ofText?` rounds it to the nearest number.
-/

namespace Sequencer

/-- A number of a binary format. -/
structure BinaryNumber (f : BinaryFormat) where
  /-- The bit pattern. -/
  bits : BitVec f.width
  deriving DecidableEq, Repr

/-- A 32-bit number. -/
abbrev Single := BinaryNumber .single

/-- A 64-bit number. -/
abbrev Double := BinaryNumber .double

namespace BinaryNumber

variable {f : BinaryFormat}

/-- The number with a sign and a magnitude. -/
def ofMagnitude (negative : Bool) (magnitude : Nat) : BinaryNumber f :=
  ⟨.ofNat _ (f.pattern negative magnitude)⟩

/-- The number nearest to a decimal. -/
def ofDecimal (negative : Bool) (d : Decimal) : BinaryNumber f :=
  ofMagnitude negative (f.ofDecimal d)

instance : Inhabited (BinaryNumber f) := ⟨ofMagnitude false 0⟩

instance : OfScientific (BinaryNumber f) where
  ofScientific significand negativeExponent exponent :=
    ofDecimal false ⟨significand, if negativeExponent then -exponent else exponent⟩

/-- What the pattern stands for. -/
def reading (x : BinaryNumber f) : BinaryFormat.Reading := f.read x.bits.toNat

/-- Equality as numbers have it: the zeros are equal, and a NaN equals nothing. -/
protected def beq (x y : BinaryNumber f) : Bool :=
  match x.reading, y.reading with
  | .nan _, _ => false
  | .finite _ 0, .finite _ 0 => true
  | _, _ => x.bits == y.bits

instance : BEq (BinaryNumber f) := ⟨BinaryNumber.beq⟩

/-- The number as arithmetic takes it. -/
def toFloat32 (x : Single) : Float32 := .ofBits (.ofBitVec x.bits)

/-- The number that arithmetic gives. -/
def ofFloat32 (x : Float32) : Single := ⟨x.toBits.toBitVec⟩

/-- The number as arithmetic takes it. -/
def toFloat (x : Double) : Float := .ofBits (.ofBitVec x.bits)

/-- The number that arithmetic gives. -/
def ofFloat (x : Float) : Double := ⟨x.toBits.toBitVec⟩

/-- The same number with 64 bits. -/
def widen (x : Single) : Double :=
  match x.reading with
  | .nan negative => ofMagnitude negative BinaryFormat.double.quietNaN
  | .infinite negative => ofMagnitude negative BinaryFormat.double.infinity
  | .finite negative magnitude =>
    -- the units of the two formats differ by a power of two
    let shift := BinaryFormat.double.scale - BinaryFormat.single.scale
    ofMagnitude negative
      (BinaryFormat.double.nearest (BinaryFormat.single.units magnitude * Nat.pow 2 shift) 1)

end BinaryNumber

namespace BinaryFormat

/-- The fewest digits that read back, in positional notation. -/
def plainMagnitude (f : BinaryFormat) (magnitude : Nat) : List Char :=
  (f.shortest magnitude).positional

/-- The plain form, marked as a fraction also when it is whole. -/
def literalMagnitude (f : BinaryFormat) (magnitude : Nat) : List Char :=
  let text := f.plainMagnitude magnitude
  if text.contains '.' then text else text ++ ['.', '0']

/-- The literal form, or scientific notation outside of `1e-4 ≤ x < 1e16`. -/
def detailedMagnitude (f : BinaryFormat) (magnitude : Nat) : List Char :=
  let d := f.shortest magnitude
  if d.significand ≠ 0 ∧ (d.magnitude < -4 ∨ 16 ≤ d.magnitude) then d.scientific
  else f.literalMagnitude magnitude

/-- The value with a fixed number of places. -/
def fixedMagnitude (f : BinaryFormat) (places magnitude : Nat) : List Char :=
  let ds := Decimal.digits (f.fixedPlaces magnitude places)
  let ds := List.replicate (places + 1 - ds.length) '0' ++ ds
  let whole := ds.take (ds.length - places)
  if places = 0 then whole else whole ++ '.' :: ds.drop (ds.length - places)

end BinaryFormat

namespace BinaryNumber

variable {f : BinaryFormat}

/-- Puts a minus sign in front. -/
def signed (negative : Bool) (text : List Char) : List Char :=
  if negative then '-' :: text else text

/-- Writes a number, given the form of a finite magnitude and whether a NaN has its sign. -/
def write (finite : Nat → List Char) (signedNaN : Bool) (x : BinaryNumber f) : List Char :=
  match x.reading with
  | .nan negative => signed (signedNaN && negative) ['N', 'a', 'N']
  | .infinite negative => signed negative ['i', 'n', 'f']
  | .finite negative magnitude => signed negative (finite magnitude)

/-- The characters of a number's literal form. -/
def literalChars (x : BinaryNumber f) : List Char :=
  x.write f.literalMagnitude true

/-- The fewest digits that read back, without an exponent: `0.1`, `16777220`, `-0`. -/
def plain (x : BinaryNumber f) : String := .ofList (x.write f.plainMagnitude false)

/-- The form for inspection: `0.1`, `1.0`, `1e16`, `1.5e-7`. -/
def detailed (x : BinaryNumber f) : String := .ofList (x.write f.detailedMagnitude false)

/-- A fixed number of places: `1.50`. -/
def fixed (places : Nat) (x : BinaryNumber f) : String :=
  .ofList (x.write (f.fixedMagnitude places) false)

end BinaryNumber

/-! ### Reading -/

/-- Takes an optional sign off the front; was it a minus? -/
def takeSign : List Char → Bool × List Char
  | '-' :: rest => (true, rest)
  | '+' :: rest => (false, rest)
  | rest => (false, rest)

/-- The number written by decimal digits, the most significant first. -/
def digitsValue (ds : List Char) : Nat :=
  ds.foldl (fun n c => 10 * n + (c.toNat - '0'.toNat)) 0

/-- Reads a signed power of ten: an optional sign and at least one digit, to the end. -/
def readPower? (cs : List Char) : Option Int :=
  let (negative, ds) := takeSign cs
  if ds.isEmpty || !ds.all Char.isDigit then none
  else some (if negative then -(digitsValue ds : Int) else digitsValue ds)

/-- Reads unsigned decimal text to its end: digits with at most one point, at least one digit in
all, and an optional power of ten. -/
def Decimal.ofText? (cs : List Char) : Option Decimal := do
  let whole := cs.takeWhile Char.isDigit
  let rest := cs.dropWhile Char.isDigit
  let (fraction, rest) := match rest with
    | '.' :: rest => (rest.takeWhile Char.isDigit, rest.dropWhile Char.isDigit)
    | rest => ([], rest)
  if whole.isEmpty && fraction.isEmpty then none
  let power ← match rest with
    | [] => some 0
    | c :: rest => if c = 'e' ∨ c = 'E' then readPower? rest else none
  return ⟨digitsValue (whole ++ fraction), power - fraction.length⟩

/-- Reads a signed decimal, rounding to the nearest number of the format. -/
def BinaryNumber.ofText? (f : BinaryFormat) (cs : List Char) : Option (BinaryNumber f) :=
  let (negative, cs) := takeSign cs
  (Decimal.ofText? cs).map (.ofDecimal negative)

end Sequencer
