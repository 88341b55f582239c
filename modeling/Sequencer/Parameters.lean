import Sequencer.Value

/-!
# Sequencer.Parameters

The named values of a player, in the order in which the names were first written.

They are kept in an ordered map, which is taken as a list of entries here. That assumes of the map:

* writing to a present name replaces the value and keeps the name's place; a new name goes to the
  end (`set`);
* removing a name keeps the order of the others (`remove`, `take`);
* two maps are equal if they bind the same names to equal values, in any order (`Parameters.beq`).
-/

namespace Sequencer

/-- Named values in insertion order. -/
structure Parameters where
  /-- Names with their values, oldest name first. -/
  entries : List (String × Value) := []
  deriving DecidableEq, Inhabited

namespace Parameters

/-- The store without names. -/
def empty : Parameters := {}

/-- The value under a name. -/
def value? (p : Parameters) (name : String) : Option Value :=
  p.entries.lookup name

/-- The value under a name as a type of its kind; nothing if it is of another kind. -/
def get? (α : Type) [ValueKind α] (p : Parameters) (name : String) : Option α :=
  (p.value? name).bind (Value.get? α)

/-- As `get?`, with the type's default for a missing value or one of another kind. -/
def getD (α : Type) [ValueKind α] (p : Parameters) (name : String) : α :=
  (p.get? α name).getD ValueKind.default

/-- Is the name bound? -/
def contains (p : Parameters) (name : String) : Bool :=
  (p.value? name).isSome

/-- Replaces the value in the first entry of a name. -/
def replace (name : String) (value : Value) : List (String × Value) → List (String × Value)
  | [] => []
  | entry :: rest =>
    if entry.1 = name then (name, value) :: rest else entry :: replace name value rest

/-- Binds a name, in its old place if it has one. -/
def set (p : Parameters) (name : String) (value : Value) : Parameters :=
  ⟨if p.contains name then replace name value p.entries else p.entries ++ [(name, value)]⟩

/-- Binds a name to a value of a typed kind. -/
def setAs {α : Type} [ValueKind α] (p : Parameters) (name : String) (a : α) : Parameters :=
  p.set name (ValueKind.toValue a)

/-- Unbinds a name. -/
def remove (p : Parameters) (name : String) : Parameters :=
  ⟨p.entries.eraseP (·.1 == name)⟩

/-- Unbinds a name and returns what it was bound to. -/
def take (p : Parameters) (name : String) : Option Value × Parameters :=
  (p.value? name, p.remove name)

/-- Unbinds all names. -/
def clear (_ : Parameters) : Parameters := .empty

/-- The number of names. -/
def size (p : Parameters) : Nat := p.entries.length

/-- Equality of the bindings, whatever their order. -/
protected def beq (p q : Parameters) : Bool :=
  p.size == q.size && p.entries.all fun (name, value) => q.value? name == some value

instance : BEq Parameters := ⟨Parameters.beq⟩

end Parameters

end Sequencer
