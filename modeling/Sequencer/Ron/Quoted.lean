import Sequencer.Ron.Lexer

/-!
# Sequencer.Ron.Quoted

Text between double quotes, characters between single quotes, and their forms that stand for bytes.

A backslash starts an escape. The escape by two hexadecimal digits is a byte: in text, up to four of
them make up a character in UTF-8; a character literal takes only a byte that is a character by
itself. Bytes may be any, but the literal of a single byte takes no escape by a code point.

A malformed literal either lacks its end (`unclosedText`, `unclosedBytes`), or has something else
wrong with it before.
-/

namespace Sequencer.Ron

open Reads

/-! ### Escapes -/

/-- What an escape stands for. -/
inductive Escape
  /-- A byte by its two digits. -/
  | byte (b : Nat)
  /-- A character by its letter. -/
  | letter (c : Char)
  /-- A character by its code point. -/
  | codePoint (c : Char)

/-- The character with a code point, if there is one. -/
def charOfCode? (n : Nat) : Option Char :=
  if n < 0xD800 ∨ (0xDFFF < n ∧ n < 0x110000) then some (Char.ofNat n) else none

/-- Reads two hexadecimal digits. -/
def hexByte : Reads Nat := do
  let a ← next
  let b ← next
  (valueInBase? 16 [a, b] : Option Nat)

/-- Reads the digits of a code point, of which there are at most six, and the closing brace. -/
def codePoint : Reads Char := do
  let digits ← span (· ≠ '\x7d')
  expect '\x7d'
  guard (!digits.isEmpty && digits.length ≤ 6)
  (valueInBase? 16 digits).bind charOfCode?

/-- Reads what follows a backslash. -/
def escape : Reads Escape := do
  match ← next with
  | '\'' => return .letter '\''
  | '"' => return .letter '"'
  | '\\' => return .letter '\\'
  | 'n' => return .letter '\n'
  | 'r' => return .letter '\r'
  | 't' => return .letter '\t'
  | '0' => return .letter '\x00'
  | 'x' => return .byte (← hexByte)
  | 'u' => do
    expect '\x7b'
    return .codePoint (← codePoint)
  | _ => failure

/-! ### Characters of several bytes -/

/-- Is this byte the continuation of a character in UTF-8? -/
def isContinuation (b : Nat) : Bool := b / 64 == 2

/-- The character that bytes encode in UTF-8, if they encode one in the shortest way. -/
def charOfBytes? : List Nat → Option Char
  | [a] => if a < 0x80 then some (Char.ofNat a) else none
  | [a, b] =>
    let n := a % 32 * 64 + b % 64
    if a / 32 = 6 ∧ isContinuation b ∧ 0x80 ≤ n then charOfCode? n else none
  | [a, b, c] =>
    let n := (a % 16 * 64 + b % 64) * 64 + c % 64
    if a / 16 = 14 ∧ isContinuation b ∧ isContinuation c ∧ 0x800 ≤ n then charOfCode? n else none
  | [a, b, c, d] =>
    let n := ((a % 8 * 64 + b % 64) * 64 + c % 64) * 64 + d % 64
    if a / 8 = 30 ∧ isContinuation b ∧ isContinuation c ∧ isContinuation d ∧ 0x10000 ≤ n then
      charOfCode? n
    else none
  | _ => none

/-- Reads more escaped bytes, as many at most as the bound, until they make up a character. -/
def completed : Nat → List Nat → Reads Char
  | more, bytes =>
    match charOfBytes? bytes, more with
    | some c, _ => return c
    | none, 0 => failure
    | none, more + 1 => do
      guard (← accept ['\\', 'x'])
      completed more (bytes ++ [← hexByte])

/-! ### Escapes by the kind of literal -/

/-- Reads an escape inside of text. -/
def textEscape : Reads Char := do
  match ← escape with
  | .byte b => completed 3 [b]
  | .letter c | .codePoint c => return c

/-- Reads an escape inside of a character literal. -/
def charEscape : Reads Char := do
  match ← escape with
  | .byte b => completed 0 [b]
  | .letter c | .codePoint c => return c

/-- Takes an escape inside of a sequence of bytes, for which any character stands. -/
def bytesEscape : Reads Char := do
  let _ ← escape
  return '\x00'

/-! ### Literals -/

/-- Reads up to the closing quote, given how escapes are read; as many characters at most as the
bound. -/
def upToQuote (special : Reads Char) : Nat → Reads (List Char)
  | 0 => failure
  | bound + 1 => do
    match ← next with
    | '"' => return []
    | '\\' => return (← special) :: (← upToQuote special bound)
    | c => return c :: (← upToQuote special bound)

/-- Reads the characters between double quotes, given how escapes are read. -/
def quotedWith (special : Reads Char) : Reads (List Char) := do
  expect '"'
  upToQuote special ((← get).length + 1)

/-- Splits raw text at the first quote that so many number signs follow. -/
def splitRaw? (signs : Nat) : List Char → Option (List Char × List Char)
  | [] => none
  | c :: rest =>
    if c = '"' ∧ rest.take signs = List.replicate signs '#' then some ([], rest.drop signs)
    else (splitRaw? signs rest).map fun (text, rest) => (c :: text, rest)

/-- Reads raw text: number signs, a quote, the characters as they are, a quote, and as many number
signs again. -/
def rawQuoted : Reads (List Char) := do
  let signs := (← span (· = '#')).length
  expect '"'
  fun cs => splitRaw? signs cs

/-- Reads text. -/
def text : Reads (List Char) := do
  if ← accept ['r'] then rawQuoted else quotedWith textEscape

/-- Reads a character literal. -/
def charLiteral : Reads Char := do
  expect '\''
  let c ← next
  let c ← if c = '\\' then charEscape else pure c
  expect '\''
  return c

/-- Takes a literal of one byte. -/
def byteLiteral : Reads Unit := do
  guard (← accept ['b', '\''])
  let c ← next
  if c = '\\' then
    match ← escape with
    | .byte _ | .letter _ => pure ()
    | .codePoint _ => failure
  else guard (c.toNat < 0x80)
  expect '\''

/-- Takes the literal of a sequence of bytes. -/
def byteString : Reads Unit := do
  expect 'b'
  if ← accept ['r'] then
    let _ ← rawQuoted
  else
    let _ ← quotedWith bytesEscape

/-! ### Literals without an end -/

/-- Behind an opening quote, is the closing quote missing? A malformed escape is found first if any
quote follows it. Given how escapes are read; looks at most as far as the bound. -/
def lacksQuote (special : Reads Char) : Nat → List Char → Bool
  | 0, _ | _ + 1, [] => true
  | _ + 1, '"' :: _ => false
  | bound + 1, '\\' :: rest =>
    !rest.contains '"' || (special.run rest).any fun (_, rest) => lacksQuote special bound rest
  | bound + 1, _ :: rest => lacksQuote special bound rest

/-- Does a literal with double quotes start here, raw or not, that has no end? -/
def startsUnclosed (special : Reads Char) : List Char → Bool
  | '"' :: rest => lacksQuote special (rest.length + 1) rest
  | 'r' :: rest =>
    let signs := (rest.takeWhile (· = '#')).length
    match rest.drop signs with
    | '"' :: rest => (splitRaw? signs rest).isNone
    | _ => false
  | _ => false

/-- Does text start here that has no end? -/
def unclosedText : List Char → Bool := startsUnclosed textEscape

/-- Does the literal of a sequence of bytes start here that has no end? -/
def unclosedBytes : List Char → Bool
  | 'b' :: rest => startsUnclosed bytesEscape rest
  | _ => false

end Sequencer.Ron
