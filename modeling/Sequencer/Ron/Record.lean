import Sequencer.Ron.Skip

/-!
# Sequencer.Ron.Record

Records of known fields. The fields may come in any order, and as often as they like; a field that
nobody knows is skipped.
-/

namespace Sequencer.Ron

open Reads

variable {α : Type}

/-- Reads a field, given how the values of known fields are read, and the levels of nesting that any
other value may take; of a field that nobody knows nothing is left. -/
def field (e : Extensions) (fields : List (String × Reads α)) (depth : Nat) :
    Reads (Option (String × α)) := do
  let name ← identifier
  colon
  match fields.lookup name with
  | none =>
    skip e depth false
    return none
  | some value => return some (name, ← value)

/-- The levels of nesting that are left for a value between brackets. -/
def between (depth : Nat) : Nat := depth - 2

/-- Reads a record that may nest so deep. Returns the known fields in the order in which they
come. -/
def record (e : Extensions) (depth : Nat) (name : String) (fields : List (String × Reads α))
    (bare : Bool := false) : Reads (List (String × α)) := do
  if bare then return (← elements (field e fields (between depth)) ')').filterMap id
  else
    typeName e name
    blanks
    expect '('
    let found ← elements (field e fields (between depth)) ')'
    expect ')'
    return found.filterMap id

end Sequencer.Ron
