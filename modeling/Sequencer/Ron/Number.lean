import Sequencer.Ron.Lexer
import Sequencer.Ron.Library

/-!
# Sequencer.Ron.Number

Numbers as they are written in RON.

* `integer`: an integer of a given type, in base 10, 2, 8 or 16;
* `number`: a fraction, an infinity or a NaN of a given format;
* `anyNumber`: what a field takes whose type nobody knows.

A number may carry the name of its type as a suffix, which then has to be the type that is read.
Underscores may stand between digits.
-/

namespace Sequencer.Ron

open Reads

/-! ### Integers -/

/-- May this character stand in the digits of an integer? -/
def isIntegerPart (c : Char) : Bool := (hexDigit? c).isSome || c = '_'

/-- Takes a sign if there is one; was it a minus? -/
def sign : Reads Bool := do
  let (negative, rest) := takeSign (← get)
  set rest
  return negative

/-- Reads the digits of a base. The first one must not be an underscore. -/
def digits (base : Nat) : Reads Nat := do
  let ds ← span isIntegerPart
  guard (ds.head?.any (· ≠ '_'))
  valueInBase? base (ds.filter (· ≠ '_'))

/-- Reads an integer without sign: in base 2, 8 or 16 behind `0b`, `0o` or `0x`, else in base 10. -/
def natural : Reads Nat := do
  if ← accept ['0', 'b'] then digits 2
  else if ← accept ['0', 'o'] then digits 8
  else if ← accept ['0', 'x'] then digits 16
  else digits 10

/-- Reads an integer of a type, behind its sign. -/
def integerIn (type : IntegerType) (negative : Bool) : Reads Int := do
  let n : Int ← natural
  let n := if negative then -n else n
  guard (type.low ≤ n ∧ n ≤ type.high)
  return n

/-- The type that the suffix behind the digits names, if there is one. -/
def suffixAhead : Reads (Option IntegerType) := ahead do
  let _ ← span isIntegerPart
  let rest ← get
  return IntegerType.all.find? fun type => ((word type.suffix).run' rest).getD false

/-- Reads an integer of a type. -/
def integer (type : IntegerType) : Reads Int := do
  let negative ← sign
  match ← suffixAhead with
  | none => integerIn type negative
  | some suffix =>
    guard (suffix = type)
    let n ← integerIn type negative
    guard (← word type.suffix)
    return n

/-- Takes an integer of any type. -/
def anyInteger : Reads Unit := do
  let negative ← sign
  match ← suffixAhead with
  | none =>
    let _ ← integerIn (.widest negative) negative
  | some type =>
    let _ ← integerIn type negative
    guard (← word type.suffix)

/-! ### Fractions -/

/-- A fraction as it is written. -/
inductive Fraction
  /-- An infinity. -/
  | infinite (negative : Bool)
  /-- A NaN. -/
  | nan (negative : Bool)
  /-- A decimal. -/
  | decimal (negative : Bool) (d : Decimal)

/-- The number of a format that a fraction stands for. -/
def Fraction.toNumber (f : BinaryFormat) : Fraction → BinaryNumber f
  | infinite negative => .ofMagnitude negative f.infinity
  | nan negative => .ofMagnitude negative f.quietNaN
  | decimal negative d => .ofDecimal negative d

/-- May this character stand in the digits of a fraction? -/
def isFractionPart (c : Char) : Bool :=
  c.isDigit || ['e', 'E', '.', '+', '-', '_'].contains c

/-- May underscores stand behind this character of a fraction? A digit and the mark of the exponent
allow them, a point forbids them, and a sign leaves things as they are. -/
def allowsUnderscore (c : Char) (allowed : Bool) : Bool :=
  if c.isDigit ∨ c = 'e' ∨ c = 'E' then true else allowed && c ≠ '.'

/-- Drops the underscores of a fraction, each of which must stand where it is allowed. -/
def withoutUnderscores? : Bool → List Char → Option (List Char)
  | _, [] => some []
  | allowed, c :: rest =>
    if c = '_' then (if allowed then withoutUnderscores? allowed rest else none)
    else (withoutUnderscores? (allowsUnderscore c allowed) rest).map (c :: ·)

/-- Takes the suffix of a fraction if there is one. -/
def fractionSuffix : Reads (Option BinaryFormat) := do
  if ← word "f32" then return some .single
  if ← word "f64" then return some .double
  return none

/-- Reads the name of an infinity or a NaN, behind its sign. -/
def fractionName (negative : Bool) : Reads Fraction := do
  if ← accept ['i', 'n', 'f'] then return .infinite negative
  if ← accept ['N', 'a', 'N'] then return .nan negative
  failure

/-- Reads an infinity or a NaN, and its suffix. -/
def namedFraction : Reads (Fraction × Option BinaryFormat) := do
  let negative ← sign
  let fraction ← fractionName negative
  let suffix ← fractionSuffix
  guard (suffix.isSome || !(← peek?).any Text.isIdentifierPart)
  return (fraction, suffix)

/-- Reads a decimal, and its suffix. -/
def decimalFraction : Reads (Fraction × Option BinaryFormat) := do
  let cs ← span isFractionPart
  let suffix ← fractionSuffix
  let (negative, cs) := takeSign (← withoutUnderscores? false cs)
  return (.decimal negative (← Decimal.ofText? cs), suffix)

/-- Reads a fraction, and its suffix. -/
def fraction : Reads (Fraction × Option BinaryFormat) := namedFraction <|> decimalFraction

/-- Reads a number of a format. -/
def number (f : BinaryFormat) : Reads (BinaryNumber f) := do
  let (x, suffix) ← fraction
  guard (suffix.all (· = f))
  return x.toNumber f

/-! ### Numbers of any type -/

/-- Do more characters follow that may stand in a fraction than may stand in an integer? -/
def startsFraction (cs : List Char) : Bool :=
  let rest := (takeSign cs).2
  (rest.takeWhile isIntegerPart).length < (rest.takeWhile isFractionPart).length

/-- Takes a number of any type. One that is no integer of any type may still be a fraction. -/
def anyNumber : Reads Unit := do
  if startsFraction (← get) then
    let _ ← fraction
  else
    anyInteger <|> do
      let _ ← fraction

end Sequencer.Ron
