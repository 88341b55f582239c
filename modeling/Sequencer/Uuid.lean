/-!
# Sequencer.Uuid

128-bit identifiers. They are written as 32 lower-case hexadecimal digits in groups of 8, 4, 4, 4
and 12; `Uuid.ofText?` also takes the digits alone, the grouped form in braces and the grouped form
after `urn:uuid:`, all in either letter case.

Where identifiers are part of a stored text, the way they are written is a parameter (`Spelling`),
and all that is relied on is `Spelling.Lawful`; `Uuid.standard` is the way above.
-/

namespace Sequencer

/-- A 128-bit identifier. -/
structure Uuid where
  /-- Its bits, the first written digit being the most significant. -/
  bits : BitVec 128
  deriving DecidableEq, Repr

namespace Uuid

/-- The identifier of all zeros. -/
def nil : Uuid := ⟨0⟩

instance : Inhabited Uuid := ⟨nil⟩

/-- The identifier with a given value, taken modulo `2 ^ 128`. -/
def ofNat (n : Nat) : Uuid := ⟨BitVec.ofNat 128 n⟩

/-- One lower-case hexadecimal digit. -/
def hexDigit (n : Nat) : Char :=
  Nat.digitChar (n % 16)

/-- The lowest `count` hexadecimal digits of a number, the most significant first. -/
def lowDigits : Nat → Nat → List Char
  | 0, _ => []
  | count + 1, n => lowDigits count (n / 16) ++ [hexDigit n]

/-- The 32 digits. -/
def digits (u : Uuid) : List Char :=
  lowDigits 32 u.bits.toNat

/-- The grouped form. -/
def toChars (u : Uuid) : List Char :=
  let ds := u.digits
  ds.take 8 ++ '-' :: ((ds.drop 8).take 4 ++ '-' :: ((ds.drop 12).take 4 ++ '-' ::
    ((ds.drop 16).take 4 ++ '-' :: ds.drop 20)))

instance : ToString Uuid := ⟨fun u => .ofList u.toChars⟩

/-- The sixteen bytes, the most significant first. -/
def bytes (u : Uuid) : List Nat :=
  (List.range 16).map fun i => (u.bits.extractLsb' (8 * (15 - i)) 8).toNat

/-- The value of a hexadecimal digit of either case. -/
def digitValue? (c : Char) : Option Nat :=
  if '0' ≤ c ∧ c ≤ '9' then some (c.toNat - '0'.toNat)
  else if 'a' ≤ c ∧ c ≤ 'f' then some (c.toNat - 'a'.toNat + 10)
  else if 'A' ≤ c ∧ c ≤ 'F' then some (c.toNat - 'A'.toNat + 10)
  else none

/-- The number written by hexadecimal digits. -/
def hexValue? (cs : List Char) : Option Nat :=
  cs.foldlM (fun n c => (digitValue? c).map (16 * n + ·)) 0

/-- Reads 32 digits. -/
def ofDigits? (cs : List Char) : Option Uuid :=
  if cs.length = 32 then (hexValue? cs).map ofNat else none

/-- Reads the grouped form. -/
def ofGroups? (cs : List Char) : Option Uuid :=
  if cs.length = 36 ∧ [8, 13, 18, 23].all (cs[·]? == some '-') then
    ofDigits? (cs.take 8 ++ (cs.drop 9).take 4 ++ (cs.drop 14).take 4 ++ (cs.drop 19).take 4
      ++ cs.drop 24)
  else none

/-- Reads any of the written forms. -/
def ofChars? (cs : List Char) : Option Uuid :=
  if cs.length = 32 then ofDigits? cs
  else if cs.length = 36 then ofGroups? cs
  else if cs.length = 38 ∧ cs.head? = some '\x7b' ∧ cs.getLast? = some '\x7d' then
    ofGroups? ((cs.drop 1).take 36)
  else if cs.length = 45 ∧ (cs.take 9).map Char.toLower = "urn:uuid:".toList then
    ofGroups? (cs.drop 9)
  else none

/-- Reads any of the written forms. -/
def ofText? (text : String) : Option Uuid :=
  ofChars? text.toList

/-! ### In stored texts -/

/-- A way of writing identifiers. -/
structure Spelling where
  /-- An identifier as text. -/
  spell : Uuid → String
  /-- The identifier that a text stands for. -/
  read? : String → Option Uuid

/-- What is relied on: identifiers are read as they were written. -/
def Spelling.Lawful (ids : Spelling) : Prop := ∀ u, ids.read? (ids.spell u) = some u

/-- The grouped form, read from any of the written forms. -/
def standard : Spelling := ⟨toString, ofText?⟩

end Uuid

end Sequencer
