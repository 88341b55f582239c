import Sequencer.Value

/-!
# Sequencer.Override.Field

Node fields whose value a player may replace.

A field is addressed by the index that its sequence's registry gave it and by the kind of its
value. Its label and the node that owns it are informational, so a field keeps its binding when
nodes move. Two fields that end up with the same index and kind share what is bound to them.
-/

namespace Sequencer

/-- The number a registry gives a field. It has 32 bits; what becomes of sums that do not fit is up
to the `Counting` that a registry is reconciled with. -/
structure OverrideIndex where
  /-- The number. -/
  number : Nat
  deriving DecidableEq, Repr, Inhabited

instance : ToString OverrideIndex :=
  ⟨fun i => "#" ++ toString i.number⟩

/-- What a field is addressed by. -/
structure OverrideKey where
  /-- The registry's number. -/
  index : OverrideIndex
  /-- The kind of value. -/
  type : ValueType
  deriving DecidableEq, Repr

/-- A node field that players may override. -/
structure Field (α : Type) where
  /-- The index, once the field is registered. -/
  index : Option OverrideIndex := none
  /-- The template value, used where no override is enabled. -/
  value : α
  deriving DecidableEq

namespace Field

/-- A field that is not registered yet. -/
def new {α : Type} (value : α) : Field α := { value }

/-- The field with the default value of its type. -/
def default (α : Type) [ValueKind α] : Field α := new ValueKind.default

/-- The field under an index. -/
def withIndex {α : Type} (f : Field α) (index : OverrideIndex) : Field α :=
  { f with index := some index }

/-- The field with its template value as a dynamic value. -/
def toDynamic {α : Type} [ValueKind α] (f : Field α) : Field Value :=
  ⟨f.index, ValueKind.toValue f.value⟩

end Field

/-- A field as a node declares it. -/
structure Declaration where
  /-- What tooling calls the field. -/
  label : String
  /-- The field, its value made dynamic. -/
  field : Field Value
  deriving DecidableEq

namespace Declaration

/-- The kind of the declared field. -/
def type (d : Declaration) : ValueType := d.field.value.type

/-- The address of the declared field, if it is registered. -/
def key? (d : Declaration) : Option OverrideKey :=
  d.field.index.map (⟨·, d.type⟩)

end Declaration

/-- A registry's entry for one field. -/
structure Descriptor where
  /-- The field's index. -/
  index : OverrideIndex
  /-- The kind of its value. -/
  type : ValueType
  /-- Its label. -/
  label : String
  /-- The node that declared it. -/
  node : NodeId
  /-- Its template value when the registry was last reconciled. -/
  defaultValue : Value
  deriving DecidableEq

namespace Descriptor

/-- What the described field is addressed by. -/
def key (d : Descriptor) : OverrideKey := ⟨d.index, d.type⟩

/-- Does the entry describe the field at this address? -/
def isFor (d : Descriptor) (index : OverrideIndex) (type : ValueType) : Bool :=
  d.index == index && d.type == type

/-- The entry of a declared field. -/
def ofDeclaration (index : OverrideIndex) (node : NodeId) (d : Declaration) : Descriptor where
  index := index
  type := d.type
  label := d.label
  node := node
  defaultValue := d.field.value

end Descriptor

end Sequencer
