import Sequencer.Ron.Extensions

/-!
# Sequencer.Ron.Reader

How values are put together in RON text: lists, tuples, wrappers, tagged and optional values. What
they are put together from is a parameter.

A value behind a tag may be *bare*: an extension takes away its own parentheses, and the tag's stand
for them.
-/

namespace Sequencer.Ron

open Reads

/-- Reads elements with commas between them up to a closing character, which stays; a comma may
stand behind the last element. At most as many elements as the bound. -/
def upTo {α : Type} (element : Reads α) (close : Char) : Nat → Reads (List α)
  | 0 => failure
  | bound + 1 => do
    blanks
    if ← sees close then return []
    let a ← element
    if ← comma then return a :: (← upTo element close bound)
    guard (← sees close)
    return [a]

/-- Reads elements up to a closing character, which stays. -/
def elements {α : Type} (element : Reads α) (close : Char) : Reads (List α) := do
  upTo element close ((← get).length + 1)

/-- Reads a list. -/
def list {α : Type} (element : Reads α) : Reads (List α) := do
  expect '['
  let items ← elements element ']'
  expect ']'
  return items

/-- Reads so many elements with commas between them; a comma may stand behind the last one. -/
def components {α : Type} (component : Reads α) : Nat → Reads (List α)
  | 0 => return []
  | 1 => do
    blanks
    let a ← component
    let _ ← comma
    return [a]
  | count + 1 => do
    blanks
    let a ← component
    guard (← comma)
    return a :: (← components component count)

/-- Reads a tuple of so many components. -/
def tuple {α : Type} (component : Reads α) (count : Nat) (bare : Bool := false) :
    Reads (List α) := do
  if bare then components component count
  else
    expect '('
    let items ← components component count
    expect ')'
    return items

/-- Reads one value between parentheses. -/
def enclosed {α : Type} (inner : Reads α) : Reads α := do
  blanks
  expect '('
  blanks
  let a ← inner
  let _ ← comma
  expect ')'
  return a

/-- Takes the name of a type, which need not be there unless an extension asks for it. -/
def typeName (e : Extensions) (expected : String) : Reads Unit := do
  match ← attempt identifier with
  | none => guard !e.explicitNames
  | some name => guard (name = expected)

/-- Reads a value that is wrapped in parentheses, with the name of the wrapper in front or not. -/
def wrapped {α : Type} (e : Extensions) (name : String) (inner : Reads α) (bare : Bool := false) :
    Reads α := do
  if bare || e.unwrapNewtypes then inner
  else
    typeName e name
    enclosed inner

/-- Reads an optional value. One that is marked may be read in another way than one without a mark,
which only an extension allows; so does it allow a mark without parentheses. -/
def option {α : Type} (e : Extensions) (marked unmarked : Reads α) : Reads (Option α) := do
  if ← word "None" then return none
  if ← word "Some" then
    blanks
    if ← sees '(' then return some (← enclosed marked)
  guard e.implicitSome
  return some (← unmarked)

/-- Takes the colon between a name or key and its value. -/
def colon : Reads Unit := do
  blanks
  expect ':'
  blanks

/-- Reads a truth value. -/
def bool : Reads Bool := do
  if ← word "true" then return true
  guard (← word "false")
  return false

/-- Reads a whole text, given how its value is read. -/
def document {α : Type} (value : Extensions → Reads α) (chars : List Char) : Option α :=
  let whole : Reads α := do
    blanks
    let e ← attributes ((← get).length + 1) {}
    let a ← value e
    blanks
    guard (← get).isEmpty
    return a
  whole.run' chars

end Sequencer.Ron
