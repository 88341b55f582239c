import Sequencer.Identity
import Sequencer.Number.Text

/-!
# Sequencer.Value

The dynamically typed values that node fields, override slots and parameters hold.

* `Value`: nine kinds of value, `Value.type` telling which;
* `ValueKind α`: the types that are exactly one kind, read with `Value.get?`;
* `Value.text`: how a value reads in a summary.

Values compare as numbers do: `0.0` equals `-0.0`, and a value that holds a NaN equals nothing,
itself included.
-/

namespace Sequencer

/-- The kinds of value. -/
inductive ValueType
  /-- Truth values. -/
  | bool
  /-- 32-bit integers. -/
  | int
  /-- 32-bit numbers. -/
  | float
  /-- Pairs. -/
  | vector2
  /-- Triples. -/
  | vector3
  /-- Quadruples, also rotations. -/
  | vector4
  /-- Colours. -/
  | color
  /-- Text. -/
  | string
  /-- References to host objects. -/
  | entity
  deriving DecidableEq, Repr, Inhabited

namespace ValueType

/-- The name a kind is shown and stored under. -/
def name : ValueType → String
  | bool => "Bool"
  | int => "Int"
  | float => "Float"
  | vector2 => "Vector2"
  | vector3 => "Vector3"
  | vector4 => "Vector4"
  | color => "Color"
  | string => "String"
  | entity => "Entity"

/-- Every kind, in the order they are listed in. -/
def all : List ValueType :=
  [bool, int, float, vector2, vector3, vector4, color, string, entity]

/-- The kind with a name. -/
def ofName? (name : String) : Option ValueType :=
  all.find? (·.name == name)

instance : ToString ValueType := ⟨name⟩

/-- Names tell the kinds apart. -/
theorem ofName?_name (t : ValueType) : ofName? t.name = some t := by
  cases t <;> rfl

end ValueType

/-- A pair of numbers. -/
structure Vector2 where
  /-- First component. -/
  x : Single
  /-- Second component. -/
  y : Single
  deriving DecidableEq

/-- Three numbers. -/
structure Vector3 where
  /-- First component. -/
  x : Single
  /-- Second component. -/
  y : Single
  /-- Third component. -/
  z : Single
  deriving DecidableEq

/-- Four numbers. -/
structure Vector4 where
  /-- First component. -/
  x : Single
  /-- Second component. -/
  y : Single
  /-- Third component. -/
  z : Single
  /-- Fourth component. -/
  w : Single
  deriving DecidableEq

/-- A colour with an opacity. -/
structure Color where
  /-- Red. -/
  red : Single
  /-- Green. -/
  green : Single
  /-- Blue. -/
  blue : Single
  /-- Opacity. -/
  alpha : Single
  deriving DecidableEq

instance : BEq Vector2 where
  beq a b := a.x == b.x && a.y == b.y

instance : BEq Vector3 where
  beq a b := a.x == b.x && a.y == b.y && a.z == b.z

instance : BEq Vector4 where
  beq a b := a.x == b.x && a.y == b.y && a.z == b.z && a.w == b.w

instance : BEq Color where
  beq a b := a.red == b.red && a.green == b.green && a.blue == b.blue && a.alpha == b.alpha

/-- A dynamically typed value. -/
inductive Value
  /-- A truth value. -/
  | bool (b : Bool)
  /-- An integer. -/
  | int (n : Int32)
  /-- A number. -/
  | float (x : Single)
  /-- A pair. -/
  | vector2 (v : Vector2)
  /-- A triple. -/
  | vector3 (v : Vector3)
  /-- A quadruple. -/
  | vector4 (v : Vector4)
  /-- A colour. -/
  | color (c : Color)
  /-- Text. -/
  | string (s : String)
  /-- A host object. -/
  | entity (id : EntityId)
  deriving DecidableEq, Inhabited

namespace Value

/-- The kind of a value. -/
def type : Value → ValueType
  | bool _ => .bool
  | int _ => .int
  | float _ => .float
  | vector2 _ => .vector2
  | vector3 _ => .vector3
  | vector4 _ => .vector4
  | color _ => .color
  | string _ => .string
  | entity _ => .entity

/-- Equality as numbers have it. -/
protected def beq : Value → Value → Bool
  | bool a, bool b => a == b
  | int a, int b => a == b
  | float a, float b => a == b
  | vector2 a, vector2 b => a == b
  | vector3 a, vector3 b => a == b
  | vector4 a, vector4 b => a == b
  | color a, color b => a == b
  | string a, string b => a == b
  | entity a, entity b => a == b
  | _, _ => false

instance : BEq Value := ⟨Value.beq⟩

/-- Numbers in parentheses, separated by commas. -/
def listing (xs : List Single) : String :=
  "(" ++ ", ".intercalate (xs.map BinaryNumber.plain) ++ ")"

/-- How a value reads in a summary. Text stands between quotes, as it is. -/
def text : Value → String
  | bool b => toString b
  | int n => toString n.toInt
  | float x => x.plain
  | vector2 v => listing [v.x, v.y]
  | vector3 v => listing [v.x, v.y, v.z]
  | vector4 v => listing [v.x, v.y, v.z, v.w]
  | color c => "rgba" ++ listing [c.red, c.green, c.blue, c.alpha]
  | string s => "\"" ++ s ++ "\""
  | entity id => "entity " ++ toString id.uuid

end Value

/-- The types that are exactly one kind of value. -/
class ValueKind (α : Type) where
  /-- The kind. -/
  type : ValueType
  /-- As a value of that kind. -/
  toValue : α → Value
  /-- Back from a value of that kind. -/
  ofValue? : Value → Option α
  /-- The type's own default. -/
  default : α

instance : ValueKind Bool where
  type := .bool
  toValue := .bool
  ofValue? | .bool b => some b | _ => none
  default := false

instance : ValueKind Int32 where
  type := .int
  toValue := .int
  ofValue? | .int n => some n | _ => none
  default := 0

instance : ValueKind Single where
  type := .float
  toValue := .float
  ofValue? | .float x => some x | _ => none
  default := 0.0

instance : ValueKind Vector2 where
  type := .vector2
  toValue := .vector2
  ofValue? | .vector2 v => some v | _ => none
  default := ⟨0.0, 0.0⟩

instance : ValueKind Vector3 where
  type := .vector3
  toValue := .vector3
  ofValue? | .vector3 v => some v | _ => none
  default := ⟨0.0, 0.0, 0.0⟩

instance : ValueKind Vector4 where
  type := .vector4
  toValue := .vector4
  ofValue? | .vector4 v => some v | _ => none
  default := ⟨0.0, 0.0, 0.0, 0.0⟩

instance : ValueKind Color where
  type := .color
  toValue := .color
  ofValue? | .color c => some c | _ => none
  default := ⟨0.0, 0.0, 0.0, 0.0⟩

instance : ValueKind String where
  type := .string
  toValue := .string
  ofValue? | .string s => some s | _ => none
  default := ""

instance : ValueKind EntityId where
  type := .entity
  toValue := .entity
  ofValue? | .entity id => some id | _ => none
  default := ⟨.nil⟩

/-! ### Lawful kinds -/

/-- The types that are exactly one kind of value, in both directions. -/
class LawfulValueKind (α : Type) [ValueKind α] : Prop where
  /-- What is written is of the kind. -/
  type_toValue : ∀ a : α, (ValueKind.toValue a).type = ValueKind.type α
  /-- It is read back. -/
  ofValue?_toValue : ∀ a : α, ValueKind.ofValue? (ValueKind.toValue a) = some a
  /-- Every value of the kind is written for something. -/
  exists_of_type : ∀ v : Value, v.type = ValueKind.type α → ∃ a : α, ValueKind.toValue a = v

instance : LawfulValueKind Bool where
  type_toValue _ := rfl
  ofValue?_toValue _ := rfl
  exists_of_type | .bool b, _ => ⟨b, rfl⟩

instance : LawfulValueKind Int32 where
  type_toValue _ := rfl
  ofValue?_toValue _ := rfl
  exists_of_type | .int n, _ => ⟨n, rfl⟩

instance : LawfulValueKind Single where
  type_toValue _ := rfl
  ofValue?_toValue _ := rfl
  exists_of_type | .float x, _ => ⟨x, rfl⟩

instance : LawfulValueKind Vector2 where
  type_toValue _ := rfl
  ofValue?_toValue _ := rfl
  exists_of_type | .vector2 v, _ => ⟨v, rfl⟩

instance : LawfulValueKind Vector3 where
  type_toValue _ := rfl
  ofValue?_toValue _ := rfl
  exists_of_type | .vector3 v, _ => ⟨v, rfl⟩

instance : LawfulValueKind Vector4 where
  type_toValue _ := rfl
  ofValue?_toValue _ := rfl
  exists_of_type | .vector4 v, _ => ⟨v, rfl⟩

instance : LawfulValueKind Color where
  type_toValue _ := rfl
  ofValue?_toValue _ := rfl
  exists_of_type | .color c, _ => ⟨c, rfl⟩

instance : LawfulValueKind String where
  type_toValue _ := rfl
  ofValue?_toValue _ := rfl
  exists_of_type | .string s, _ => ⟨s, rfl⟩

instance : LawfulValueKind EntityId where
  type_toValue _ := rfl
  ofValue?_toValue _ := rfl
  exists_of_type | .entity id, _ => ⟨id, rfl⟩

/-! ### Exact kinds -/

/-- The types that are exactly one kind of value, and that no value of another kind is read as. -/
class ExactValueKind (α : Type) [ValueKind α] : Prop extends LawfulValueKind α where
  /-- What is read is of the kind. -/
  type_of_ofValue? : ∀ (v : Value) (a : α), ValueKind.ofValue? v = some a →
    v.type = ValueKind.type α

instance : ExactValueKind Bool where
  type_of_ofValue? | .bool _, _, _ => rfl

instance : ExactValueKind Int32 where
  type_of_ofValue? | .int _, _, _ => rfl

instance : ExactValueKind Single where
  type_of_ofValue? | .float _, _, _ => rfl

instance : ExactValueKind Vector2 where
  type_of_ofValue? | .vector2 _, _, _ => rfl

instance : ExactValueKind Vector3 where
  type_of_ofValue? | .vector3 _, _, _ => rfl

instance : ExactValueKind Vector4 where
  type_of_ofValue? | .vector4 _, _, _ => rfl

instance : ExactValueKind Color where
  type_of_ofValue? | .color _, _, _ => rfl

instance : ExactValueKind String where
  type_of_ofValue? | .string _, _, _ => rfl

instance : ExactValueKind EntityId where
  type_of_ofValue? | .entity _, _, _ => rfl

/-- A typed value is read from its own dynamic value alone. -/
theorem ofValue?_eq_some_iff {α : Type} [ValueKind α] [ExactValueKind α] {v : Value} {a : α} :
    ValueKind.ofValue? v = some a ↔ v = ValueKind.toValue a := by
  constructor
  · intro h
    obtain ⟨b, rfl⟩ := LawfulValueKind.exists_of_type v (ExactValueKind.type_of_ofValue? v a h)
    rw [LawfulValueKind.ofValue?_toValue] at h
    rw [Option.some.inj h]
  · rintro rfl
    exact LawfulValueKind.ofValue?_toValue a

namespace Value

/-- The value as a type of its kind, if it is of that kind. -/
def get? (α : Type) [ValueKind α] (v : Value) : Option α :=
  ValueKind.ofValue? v

/-- The value, if it is of a kind. -/
def ofType? (t : ValueType) (v : Value) : Option Value :=
  if v.type = t then some v else none

/-- The default value of a kind. -/
def default : ValueType → Value
  | .bool => .bool (ValueKind.default)
  | .int => .int (ValueKind.default)
  | .float => .float (ValueKind.default)
  | .vector2 => .vector2 (ValueKind.default)
  | .vector3 => .vector3 (ValueKind.default)
  | .vector4 => .vector4 (ValueKind.default)
  | .color => .color (ValueKind.default)
  | .string => .string (ValueKind.default)
  | .entity => .entity (ValueKind.default)

/-- A default is of its kind. -/
@[simp] theorem type_default (t : ValueType) : (default t).type = t := by
  cases t <;> rfl

end Value

end Sequencer
