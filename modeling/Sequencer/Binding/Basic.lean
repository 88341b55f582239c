import Sequencer.Override.Registry

/-!
# Sequencer.Binding.Basic

The override bindings of one player: a group of slots for each occurrence of a sequence, a slot for
each override field. An enabled slot replaces the template value of its field; a disabled one
defers to it.

* `Bindings.resolve`: the value a field has for the player;
* `Bindings.setOverride`, `Bindings.setEnabled`: editing a slot in place, found by its index alone.
  Both return the bindings as they are afterwards, also with a refusal;
* `BindingError.message`: the texts of the refusals.

Nothing here assumes that groups or slots are unique: the first one that fits counts.
-/

namespace Sequencer

/-- The override of one field. -/
structure Slot where
  /-- The field's index. -/
  index : OverrideIndex
  /-- The kind of the field's value. -/
  type : ValueType
  /-- Does the bound value replace the template value? -/
  enabled : Bool
  /-- The bound value. -/
  value : Value
  deriving DecidableEq

namespace Slot

/-- What the slot's field is addressed by. -/
def key (s : Slot) : OverrideKey := ⟨s.index, s.type⟩

/-- Does the slot belong to the field at this address? -/
def isFor (s : Slot) (index : OverrideIndex) (type : ValueType) : Bool :=
  s.index == index && s.type == type

/-- A disabled slot that holds a field's template value. -/
def disabled (d : Descriptor) : Slot where
  index := d.index
  type := d.type
  enabled := false
  value := d.defaultValue

/-- Equality as numbers have it. -/
protected def beq (s t : Slot) : Bool :=
  s.index == t.index && s.type == t.type && s.enabled == t.enabled && s.value == t.value

instance : BEq Slot := ⟨Slot.beq⟩

end Slot

/-- What a group of slots is addressed by: a sequence and the node that nests it. -/
structure Occurrence where
  /-- The sequence. -/
  sequence : SequenceId
  /-- The identity of the node that nests it. -/
  nested : NestedId
  deriving DecidableEq, Repr

/-- The overrides of one occurrence of a sequence. -/
structure Group where
  /-- The sequence. -/
  sequence : SequenceId
  /-- The identity of the node that nests it. -/
  nested : NestedId
  /-- The sequence's name when the bindings were last reconciled. -/
  name : String := ""
  /-- The slots, in registry order. -/
  slots : List Slot := []
  deriving DecidableEq

namespace Group

/-- What the group is addressed by. -/
def key (g : Group) : Occurrence := ⟨g.sequence, g.nested⟩

/-- Is this the group of an occurrence? -/
def isFor (g : Group) (o : Occurrence) : Bool := g.key == o

/-- The first slot of an address. -/
def slot? (g : Group) (index : OverrideIndex) (type : ValueType) : Option Slot :=
  g.slots.find? (·.isFor index type)

/-- Equality as numbers have it. -/
protected def beq (g h : Group) : Bool :=
  g.sequence == h.sequence && g.nested == h.nested && g.name == h.name && g.slots == h.slots

instance : BEq Group := ⟨Group.beq⟩

end Group

/-- The overrides of a player. -/
structure Bindings where
  /-- The groups. -/
  groups : List Group := []
  deriving DecidableEq, Inhabited

/-- Why bindings could not be edited, written or read. -/
inductive BindingError
  /-- The occurrence has no group. -/
  | groupNotFound (occurrence : Occurrence)
  /-- The group has no slot with this index. -/
  | slotNotFound (index : OverrideIndex)
  /-- The slot is for another kind of value. -/
  | typeMismatch (index : OverrideIndex) (expected found : ValueType)
  /-- The bindings could not be written. -/
  | unwritable
  /-- The text holds no bindings. -/
  | malformed
  deriving DecidableEq, Repr

namespace BindingError

/-- The text of a refusal. -/
def message : BindingError → String
  | groupNotFound o =>
    "No bindings for sequence SequenceId(" ++ toString o.sequence.uuid ++ ") ("
      ++ toString o.nested ++ ")"
  | slotNotFound index => "No override slot " ++ toString index
  | typeMismatch index expected found =>
    "Override " ++ toString index ++ " expects " ++ expected.name ++ ", got " ++ found.name
  | unwritable => "Serialization error: bindings that cannot be written"
  | malformed => "Deserialization error: malformed bindings"

end BindingError

/-- Changes the first element that satisfies a condition. -/
def modifyFirst {α : Type} (p : α → Bool) (f : α → α) : List α → List α
  | [] => []
  | a :: rest => if p a then f a :: rest else a :: modifyFirst p f rest

namespace Bindings

/-- Bindings without groups. -/
def empty : Bindings := {}

/-- Equality as numbers have it. -/
protected def beq (a b : Bindings) : Bool := a.groups == b.groups

instance : BEq Bindings := ⟨Bindings.beq⟩

/-- The first group of an occurrence. -/
def group? (b : Bindings) (o : Occurrence) : Option Group :=
  b.groups.find? (·.isFor o)

/-- The enabled slot of a field that is registered under `index`. -/
def override? (b : Bindings) (o : Occurrence) (index : OverrideIndex) (type : ValueType) :
    Option Slot :=
  ((b.group? o).bind (·.slot? index type)).filter (·.enabled)

/-- The value of a field at an occurrence: what its enabled slot holds, if that is of the field's
kind, and the template value otherwise. -/
def resolveValue (b : Bindings) (field : Field Value) (o : Occurrence) : Value :=
  let bound := do
    let slot ← b.override? o (← field.index) field.value.type
    slot.value.ofType? field.value.type
  bound.getD field.value

/-- The value of a typed field at an occurrence. -/
def resolve {α : Type} [ValueKind α] (b : Bindings) (field : Field α) (o : Occurrence) : α :=
  (ValueKind.ofValue? (b.resolveValue field.toDynamic o)).getD field.value

/-! ### Edits -/

/-- Steps that edit bindings in place. A refusal ends them, and what was changed before it stays
changed. -/
abbrev Editing := ExceptT BindingError (StateM Bindings)

/-- Changes the first slot with an index in the first group of an occurrence. -/
def modifySlot (b : Bindings) (o : Occurrence) (index : OverrideIndex) (change : Slot → Slot) :
    Bindings :=
  ⟨modifyFirst (·.isFor o)
    (fun g => { g with slots := modifyFirst (·.index == index) change g.slots }) b.groups⟩

namespace Editing

/-- The first slot with an index in the first group of an occurrence. -/
def slotByIndex (o : Occurrence) (index : OverrideIndex) : Editing Slot := do
  let some group := (← get).group? o | throw (.groupNotFound o)
  let some slot := group.slots.find? (·.index == index) | throw (.slotNotFound index)
  return slot

/-- Changes the slot that `slotByIndex` finds. -/
def modifySlot (o : Occurrence) (index : OverrideIndex) (change : Slot → Slot) : Editing Unit :=
  modify fun b : Bindings => b.modifySlot o index change

/-- Binds a value and enables its slot. -/
def setOverride (o : Occurrence) (index : OverrideIndex) (value : Value) : Editing Unit := do
  let slot ← slotByIndex o index
  if slot.type ≠ value.type then throw (.typeMismatch index slot.type value.type)
  modifySlot o index ({ · with value })
  modifySlot o index ({ · with enabled := true })

/-- Enables or disables a slot; the bound value stays. -/
def setEnabled (o : Occurrence) (index : OverrideIndex) (enabled : Bool) : Editing Unit := do
  let _ ← slotByIndex o index
  modifySlot o index ({ · with enabled })

end Editing

/-- Binds a value and enables its slot. Returns the bindings in any case, as the edit leaves
them. -/
def setOverride (b : Bindings) (o : Occurrence) (index : OverrideIndex) (value : Value) :
    Except BindingError Unit × Bindings :=
  (Editing.setOverride o index value).run.run b

/-- Enables or disables a slot; the bound value stays. Returns the bindings in any case, as the edit
leaves them. -/
def setEnabled (b : Bindings) (o : Occurrence) (index : OverrideIndex) (enabled : Bool) :
    Except BindingError Unit × Bindings :=
  (Editing.setEnabled o index enabled).run.run b

end Bindings

end Sequencer
