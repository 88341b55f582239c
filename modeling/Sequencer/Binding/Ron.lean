import Sequencer.Binding.Basic
import Sequencer.Ron.Coding

/-!
# Sequencer.Binding.Ron

Bindings as RON text. Records are written without their names; when bindings are read, every field
is required, in any order, and unknown fields are skipped. A slot may hold a value of another kind
than its own: reconciliation mends that.

The library that writes and reads RON, and the way identifiers are written, are parameters.
-/

namespace Sequencer

open Ron

/-! ### Identifiers -/

/-- Identifiers, in the wrapper of their type. -/
def Uuid.coding (ids : Uuid.Spelling) (wrapper : String) : Coding Uuid :=
  .newtype wrapper (Coding.text.via ids.spell ids.read?)

/-- Identifiers of sequences. -/
def SequenceId.coding (ids : Uuid.Spelling) : Coding SequenceId :=
  (Uuid.coding ids "SequenceId").via (·.uuid) fun u => some ⟨u⟩

/-- Identifiers of occurrences. -/
def NestedId.coding (ids : Uuid.Spelling) : Coding NestedId :=
  (Uuid.coding ids "NestedId").via (·.uuid) fun u => some ⟨u⟩

/-- Identifiers of host objects. -/
def EntityId.coding (ids : Uuid.Spelling) : Coding EntityId :=
  (Uuid.coding ids "EntityId").via (·.uuid) fun u => some ⟨u⟩

/-- Indices. -/
def OverrideIndex.coding : Coding OverrideIndex :=
  .newtype "OverrideIndex" <|
    (Coding.integer .u32).via (fun i => (i.number : Int)) fun n => some ⟨n.toNat⟩

/-! ### Values -/

/-- Pairs. -/
def Vector2.coding : Coding Vector2 :=
  (Coding.single.tuple 2).via (fun v => [v.x, v.y]) fun
    | [x, y] => some ⟨x, y⟩
    | _ => none

/-- Triples. -/
def Vector3.coding : Coding Vector3 :=
  (Coding.single.tuple 3).via (fun v => [v.x, v.y, v.z]) fun
    | [x, y, z] => some ⟨x, y, z⟩
    | _ => none

/-- Quadruples. -/
def Vector4.coding : Coding Vector4 :=
  (Coding.single.tuple 4).via (fun v => [v.x, v.y, v.z, v.w]) fun
    | [x, y, z, w] => some ⟨x, y, z, w⟩
    | _ => none

/-- Colours. -/
def Color.coding : Coding Color :=
  .newtype "Color" <| (Coding.single.tuple 4).via (fun c => [c.red, c.green, c.blue, c.alpha]) fun
    | [red, green, blue, alpha] => some ⟨red, green, blue, alpha⟩
    | _ => none

/-- The kinds of value. -/
def ValueType.coding : Coding ValueType := .units ValueType.all ValueType.name

namespace Value

/-- What a value holds, as it is written. -/
def inner (ids : Uuid.Spelling) : Value → Datum
  | bool b => Coding.bool.write b
  | int n => Coding.i32.write n
  | float x => Coding.single.write x
  | vector2 v => Vector2.coding.write v
  | vector3 v => Vector3.coding.write v
  | vector4 v => Vector4.coding.write v
  | color c => Color.coding.write c
  | string s => Coding.text.write s
  | entity id => (EntityId.coding ids).write id

/-- How a value of each kind is read. -/
def variants (ids : Uuid.Spelling) : List (Coding.Variant Value) :=
  [.of "Bool" .bool bool, .of "Int" .i32 int, .of "Float" .single float,
   .of "Vector2" Vector2.coding vector2, .of "Vector3" Vector3.coding vector3,
   .of "Vector4" Vector4.coding vector4, .of "Color" Color.coding color,
   .of "String" .text string, .of "Entity" (EntityId.coding ids) entity]

/-- Values: the name of the kind, with what the value holds. -/
def coding (ids : Uuid.Spelling) : Coding Value :=
  .choice (variants ids) (·.type.name) (inner ids)

end Value

/-! ### Slots, groups and bindings -/

namespace Slot

/-- The fields of a slot. -/
def parts (ids : Uuid.Spelling) : List (Coding.Part Slot) :=
  [.of "index" OverrideIndex.coding (·.index) fun index s => { s with index },
   .of "value_type" ValueType.coding (·.type) fun type s => { s with type },
   .of "enabled" .bool (·.enabled) fun enabled s => { s with enabled },
   .of "value" (Value.coding ids) (·.value) fun value s => { s with value }]

/-- Slots. -/
def coding (ids : Uuid.Spelling) : Coding Slot :=
  .record ⟨⟨0⟩, .bool, false, .bool false⟩ "BindingSlot" (parts ids)

end Slot

namespace Group

/-- The fields of a group. -/
def parts (ids : Uuid.Spelling) : List (Coding.Part Group) :=
  [.of "sequence" (SequenceId.coding ids) (·.sequence) fun sequence g => { g with sequence },
   .of "nested" (NestedId.coding ids) (·.nested) fun nested g => { g with nested },
   .of "sequence_name" .text (·.name) fun name g => { g with name },
   .of "slots" (Slot.coding ids).list (·.slots) fun slots g => { g with slots }]

/-- Groups. -/
def coding (ids : Uuid.Spelling) : Coding Group :=
  .record { sequence := ⟨.nil⟩, nested := .root } "BindingGroup" (parts ids)

end Group

namespace Bindings

/-- The fields of bindings. -/
def parts (ids : Uuid.Spelling) : List (Coding.Part Bindings) :=
  [.of "groups" (Group.coding ids).list (·.groups) fun groups _ => ⟨groups⟩]

/-- Bindings. -/
def coding (ids : Uuid.Spelling) : Coding Bindings :=
  .record .empty "OverrideBindings" (parts ids)

/-- Bindings as text. -/
def toRon (ron : Library) (ids : Uuid.Spelling) (b : Bindings) : Except BindingError String :=
  match (coding ids).print ron false b with
  | none => .error .unwritable
  | some text => .ok text

/-- Reads bindings. -/
def ofRon (ron : Library) (ids : Uuid.Spelling) (text : String) : Except BindingError Bindings :=
  match (coding ids).parse ron text with
  | none => .error .malformed
  | some b => .ok b

end Bindings

end Sequencer
