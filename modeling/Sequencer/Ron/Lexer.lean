import Sequencer.Text.Identifier

/-!
# Sequencer.Ron.Lexer

Readers of RON text, and the smallest pieces that they read: blanks, comments, words, identifiers.

A reader takes what it reads off the front of the characters, and has no answer where the text is
malformed. `Reads.ahead` looks at what follows without taking it.
-/

namespace Sequencer.Ron

/-- A reader of the front of a text. -/
abbrev Reads (α : Type) := StateT (List Char) Option α

namespace Reads

/-- The next character, which is not taken. -/
def peek? : Reads (Option Char) := do return (← get).head?

/-- Does this character come next? It is not taken. -/
def sees (c : Char) : Reads Bool := do return (← get).head? == some c

/-- Takes the next character. -/
def next : Reads Char := do
  match ← get with
  | [] => failure
  | c :: rest =>
    set rest
    return c

/-- Takes given characters if they come next; did they? -/
def accept (text : List Char) : Reads Bool := do
  let cs ← get
  if cs.take text.length = text then
    set (cs.drop text.length)
    return true
  else return false

/-- Takes one given character, which has to come next. -/
def expect (c : Char) : Reads Unit := do guard (← accept [c])

/-- Takes the longest run of characters of a class. -/
def span (isPart : Char → Bool) : Reads (List Char) := do
  let cs ← get
  set (cs.dropWhile isPart)
  return cs.takeWhile isPart

/-- What a reader would read, none of which is taken. -/
def ahead {α : Type} (read : Reads α) : Reads α := do
  let cs ← get
  let a ← read
  set cs
  return a

/-- What a reader reads, if it has an answer. -/
def attempt {α : Type} (read : Reads α) : Reads (Option α) :=
  (some <$> read) <|> pure none

end Reads

open Reads

/-! ### Blanks -/

/-- Is this a blank character? -/
def isBlank (c : Char) : Bool :=
  [' ', '\t', '\n', '\r', '\x0B', '\x0C', '\u0085', '\u200E', '\u200F', '\u2028',
    '\u2029'].contains c

/-- Where skipping stands: between comments or inside of one. -/
inductive BlankState
  /-- Outside of comments. -/
  | plain
  /-- In a comment to the end of the line. -/
  | line
  /-- In a bracketed comment, inside of so many others. -/
  | block (outer : Nat)

/-- Skips blanks and comments. Bracketed comments nest, and must be closed. -/
def skipFrom : BlankState → List Char → Option (List Char)
  | .plain, '/' :: '/' :: rest => skipFrom .line rest
  | .plain, '/' :: '*' :: rest => skipFrom (.block 0) rest
  | .plain, '/' :: _ => none
  | .plain, c :: rest => if isBlank c then skipFrom .plain rest else some (c :: rest)
  | .plain, [] => some []
  | .line, [] => some []
  | .line, c :: rest => if c = '\n' then skipFrom .plain rest else skipFrom .line rest
  | .block _, [] => none
  | .block outer, '/' :: '*' :: rest => skipFrom (.block (outer + 1)) rest
  | .block 0, '*' :: '/' :: rest => skipFrom .plain rest
  | .block (outer + 1), '*' :: '/' :: rest => skipFrom (.block outer) rest
  | .block outer, _ :: rest => skipFrom (.block outer) rest

/-- Takes blanks and comments. -/
def blanks : Reads Unit := fun cs => (skipFrom .plain cs).map ((), ·)

/-- Takes blanks, a comma if one follows, and blanks behind the comma; was there a comma? -/
def comma : Reads Bool := do
  blanks
  if ← accept [','] then
    blanks
    return true
  else return false

/-! ### Words and identifiers -/

/-- Takes a word if it comes next and does not go on behind its last character; did it? -/
def word (text : String) : Reads Bool := do
  let cs ← get
  let rest := cs.drop text.length
  if cs.take text.length = text.toList && !rest.head?.any Text.isIdentifierPart then
    set rest
    return true
  else return false

/-- Takes the first of these words that comes next; did one? -/
def oneWord : List String → Reads Bool
  | [] => return false
  | text :: others => do
    if ← word text then return true
    oneWord others

/-- May this character stand in an identifier that is marked as raw? -/
def isRawPart (c : Char) : Bool :=
  Text.isIdentifierPart c || c = '.' || c = '+' || c = '-'

/-- Does the text start with a raw or byte literal, where an identifier could stand? -/
def startsLiteral : List Char → Bool
  | 'r' :: '"' :: _ | 'b' :: '"' :: _ | 'b' :: '\'' :: _ => true
  | 'b' :: 'r' :: '"' :: _ | 'b' :: 'r' :: '#' :: _ => true
  | 'r' :: '#' :: '"' :: _ | 'r' :: '#' :: '#' :: _ => true
  | _ => false

/-- Reads an identifier. The mark that makes any word an identifier is not part of it. -/
def identifier : Reads String := do
  match ← get with
  | 'r' :: '#' :: rest =>
    set rest
    let text ← span isRawPart
    guard !text.isEmpty
    return .ofList text
  | cs =>
    guard (!startsLiteral cs && cs.head?.any Text.isIdentifierStart)
    return .ofList ((← next) :: (← span Text.isIdentifierPart))

/-! ### Hexadecimal digits -/

/-- The value of a hexadecimal digit. -/
def hexDigit? (c : Char) : Option Nat :=
  if c.isDigit then some (c.toNat - '0'.toNat)
  else if 'a' ≤ c ∧ c ≤ 'f' then some (c.toNat - 'a'.toNat + 10)
  else if 'A' ≤ c ∧ c ≤ 'F' then some (c.toNat - 'A'.toNat + 10)
  else none

/-- The number written by digits of a base up to sixteen. -/
def valueInBase? (base : Nat) (digits : List Char) : Option Nat :=
  digits.foldlM (fun n c => do
    let d ← hexDigit? c
    if d < base then some (base * n + d) else none) 0

end Sequencer.Ron
