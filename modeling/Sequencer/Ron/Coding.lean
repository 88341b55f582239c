import Sequencer.Ron.Library

/-!
# Sequencer.Ron.Coding

How types are turned into data and back.

A `Coding` of a type has the shape that is asked for, the datum that a value is written as, and the
value that a datum of the shape stands for. Codings are put together as types are: wrappers, lists,
variants, and records, which are given by their fields (`Part`). A field that comes twice is
refused; one that is missing either is refused or keeps the value of a default.
-/

namespace Sequencer.Ron

/-- How values of a type are written and read. -/
structure Coding (α : Type) where
  /-- What is asked for. -/
  shape : Shape
  /-- What a value is written as. -/
  write : α → Datum
  /-- The value that a datum stands for. -/
  read? : Datum → Option α

namespace Coding

variable {α β : Type}

/-! ### Values in one piece -/

/-- Truth values. -/
def bool : Coding Bool where
  shape := .bool
  write := .bool
  read? | .bool b => some b | _ => none

/-- Integers of a type. -/
def integer (type : IntegerType) : Coding Int where
  shape := .integer type
  write := .integer
  read? | .integer n => if type.low ≤ n ∧ n ≤ type.high then some n else none | _ => none

/-- 32-bit numbers. -/
def single : Coding Single where
  shape := .single
  write := .single
  read? | .single x => some x | _ => none

/-- 64-bit numbers. -/
def double : Coding Double where
  shape := .double
  write := .double
  read? | .double x => some x | _ => none

/-- Text. -/
def text : Coding String where
  shape := .text
  write := .text
  read? | .text s => some s | _ => none

/-- Values that are written as values of another type. -/
def via (c : Coding α) (into : β → α) (back? : α → Option β) : Coding β where
  shape := c.shape
  write b := c.write (into b)
  read? d := (c.read? d).bind back?

/-- Unsigned 32-bit integers. -/
def u32 : Coding UInt32 := (integer .u32).via (·.toNat) fun n => some (.ofNat n.toNat)

/-- Signed 32-bit integers. -/
def i32 : Coding Int32 := (integer .i32).via Int32.toInt fun n => some (.ofInt n)

/-! ### Values of several pieces -/

/-- Optional values. -/
def option (c : Coding α) : Coding (Option α) where
  shape := .option c.shape
  write
    | none => .absent
    | some a => .present (c.write a)
  read?
    | .absent => some none
    | .present d => (c.read? d).map some
    | _ => none

/-- Values in a wrapper. -/
def newtype (name : String) (c : Coding α) : Coding α where
  shape := .newtype name c.shape
  write a := .newtype name (c.write a)
  read? | .newtype _ d => c.read? d | _ => none

/-- So many values. -/
def tuple (c : Coding α) (count : Nat) : Coding (List α) where
  shape := .tuple c.shape count
  write as := .tuple (as.map c.write)
  read?
    | .tuple items => if items.length = count then items.mapM c.read? else none
    | _ => none

/-- Any number of values. -/
def list (c : Coding α) : Coding (List α) where
  shape := .list c.shape
  write as := .list (as.map c.write)
  read? | .list items => items.mapM c.read? | _ => none

/-- The values of an enumeration, by their names. -/
def units (all : List α) (name : α → String) : Coding α where
  shape := .units (all.map name)
  write a := .unit (name a)
  read? | .unit found => all.find? (found == name ·) | _ => none

/-! ### Variants -/

/-- A variant of a type. -/
structure Variant (α : Type) where
  /-- Its name. -/
  name : String
  /-- What it holds. -/
  shape : Shape
  /-- The value that it is read as, given what it holds. -/
  read? : Datum → Option α

/-- A variant that holds a value of another type. -/
def Variant.of (name : String) (c : Coding β) (wrap : β → α) : Variant α :=
  ⟨name, c.shape, fun d => (c.read? d).map wrap⟩

/-- One of several variants. -/
def choice (variants : List (Variant α)) (name : α → String) (inner : α → Datum) : Coding α where
  shape := .choice (variants.map fun v => (v.name, v.shape))
  write a := .variant (name a) (inner a)
  read?
    | .variant name d => (variants.find? (name == ·.name)).bind (·.read? d)
    | _ => none

/-! ### Records -/

/-- A field of a record. -/
structure Part (α : Type) where
  /-- Its name. -/
  name : String
  /-- What it holds. -/
  shape : Shape
  /-- What it holds in a record. -/
  write : α → Datum
  /-- What reading it changes, given what it holds. -/
  change? : Datum → Option (α → α)

/-- A field that holds a value of another type. -/
def Part.of (name : String) (c : Coding β) (get : α → β) (set : β → α → α) : Part α :=
  ⟨name, c.shape, fun a => c.write (get a), fun d => (c.read? d).map set⟩

/-- The fields of a record as they are written. -/
def fields (parts : List (Part α)) (a : α) : List (String × Datum) :=
  parts.map fun p => (p.name, p.write a)

/-- What reading a field changes. -/
def change? (parts : List (Part α)) (field : String × Datum) : Option (α → α) :=
  (parts.find? (field.1 == ·.name)).bind (·.change? field.2)

/-- Reads fields, none of which may come twice, on top of a value. -/
def readFields? (parts : List (Part α)) (start : α) (found : List (String × Datum)) : Option α := do
  guard (found.map (·.1)).Nodup
  found.foldlM (fun a field => return (← change? parts field) a) start

/-- Records whose fields may all be missing: a missing one is that of the default. -/
def recordOr (default : α) (name : String) (parts : List (Part α)) : Coding α where
  shape := .record name (parts.map fun p => (p.name, p.shape))
  write a := .record name (fields parts a)
  read? | .record _ found => readFields? parts default found | _ => none

/-- Records whose fields must all be there. The value that they are read on top of is replaced
altogether. -/
def record (start : α) (name : String) (parts : List (Part α)) : Coding α where
  shape := .record name (parts.map fun p => (p.name, p.shape))
  write a := .record name (fields parts a)
  read?
    | .record _ found =>
      if parts.all (fun p => (found.map (·.1)).contains p.name) then
        readFields? parts start found
      else none
    | _ => none

/-! ### Texts -/

/-- Writes a value, with the names of records and wrappers or without. -/
def print (c : Coding α) (ron : Library) (names : Bool) (a : α) : Option String :=
  ron.print names (c.write a)

/-- Reads a text. -/
def parse (c : Coding α) (ron : Library) (text : String) : Option α :=
  (ron.parse c.shape text).bind c.read?

end Coding

end Sequencer.Ron
