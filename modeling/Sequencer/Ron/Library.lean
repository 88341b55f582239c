import Sequencer.Number.Text

/-!
# Sequencer.Ron.Library

The library that writes and reads the object notation RON, as far as others rely on it.

The library is a parameter wherever something is written or read: `Library` is what it does, and
`Library.Lawful` names what is relied on. A library that keeps these laws is `Ron.standard`.

* `Datum`: a value as it is handed to the library; `Shape`: what is asked for when a text is read;
* `Fits`: a datum is one of a shape, and nothing of it is lost in a text;
* `Shape.Readable`: what is asked for does not nest too deep, and its names are plain.
-/

namespace Sequencer.Ron

/-! ### Data and shapes -/

/-- A type of integers. -/
structure IntegerType where
  /-- Its name, which numbers carry as a suffix. -/
  suffix : String
  /-- The lowest number. -/
  low : Int
  /-- The highest number. -/
  high : Int
  deriving DecidableEq, Repr

namespace IntegerType

/-- Unsigned 32-bit integers. -/
def u32 : IntegerType := ⟨"u32", 0, 4294967295⟩

/-- Unsigned 64-bit integers. -/
def u64 : IntegerType := ⟨"u64", 0, 18446744073709551615⟩

/-- Signed 32-bit integers. -/
def i32 : IntegerType := ⟨"i32", -2147483648, 2147483647⟩

/-- Signed 64-bit integers. -/
def i64 : IntegerType := ⟨"i64", -9223372036854775808, 9223372036854775807⟩

/-- The types that have a suffix. -/
def all : List IntegerType :=
  [⟨"i8", -128, 127⟩, ⟨"i16", -32768, 32767⟩, i32, i64,
    ⟨"u8", 0, 255⟩, ⟨"u16", 0, 65535⟩, u32, u64]

/-- The widest type with a sign or without. -/
def widest (negative : Bool) : IntegerType := if negative then i64 else u64

end IntegerType

/-- A value as it is written. -/
inductive Datum
  /-- A truth value. -/
  | bool (b : Bool)
  /-- A whole number. -/
  | integer (n : Int)
  /-- A 32-bit number. -/
  | single (x : Single)
  /-- A 64-bit number. -/
  | double (x : Double)
  /-- Text. -/
  | text (s : String)
  /-- An optional value that is not there. -/
  | absent
  /-- An optional value that is there. -/
  | present (inner : Datum)
  /-- A variant that holds nothing. -/
  | unit (name : String)
  /-- A variant that holds one value. -/
  | variant (name : String) (inner : Datum)
  /-- A wrapper of one value. -/
  | newtype (name : String) (inner : Datum)
  /-- So many values as the type has components. -/
  | tuple (items : List Datum)
  /-- Any number of values. -/
  | list (items : List Datum)
  /-- Named fields, in the order in which they are written. -/
  | record (name : String) (fields : List (String × Datum))

/-- What is asked for when a value is read. -/
inductive Shape
  /-- A truth value. -/
  | bool
  /-- A whole number of a type. -/
  | integer (type : IntegerType)
  /-- A 32-bit number. -/
  | single
  /-- A 64-bit number. -/
  | double
  /-- Text. -/
  | text
  /-- An optional value. -/
  | option (inner : Shape)
  /-- One of these variants, none of which holds anything. -/
  | units (names : List String)
  /-- One of these variants, each of which holds one value. -/
  | choice (variants : List (String × Shape))
  /-- A wrapper of one value. -/
  | newtype (name : String) (inner : Shape)
  /-- So many values of a shape. -/
  | tuple (item : Shape) (count : Nat)
  /-- Any number of values of a shape. -/
  | list (item : Shape)
  /-- A record that may have these fields. -/
  | record (name : String) (fields : List (String × Shape))

/-- The datum is one of the shape, and a text tells it apart from others: its integers are in range,
its numbers are no NaNs, and none of its fields is written twice. A record need not have all of its
fields. -/
inductive Fits : Shape → Datum → Prop
  | bool (b : Bool) : Fits .bool (.bool b)
  | integer {type : IntegerType} {n : Int} :
      type.low ≤ n → n ≤ type.high → Fits (.integer type) (.integer n)
  | single {x : Single} : (x == x) = true → Fits .single (.single x)
  | double {x : Double} : (x == x) = true → Fits .double (.double x)
  | text (s : String) : Fits .text (.text s)
  | absent {inner : Shape} : Fits (.option inner) .absent
  | present {inner : Shape} {d : Datum} : Fits inner d → Fits (.option inner) (.present d)
  | unit {names : List String} {name : String} : name ∈ names → Fits (.units names) (.unit name)
  | variant {variants : List (String × Shape)} {name : String} {inner : Shape} {d : Datum} :
      variants.lookup name = some inner → Fits inner d → Fits (.choice variants) (.variant name d)
  | newtype {name : String} {inner : Shape} {d : Datum} :
      Fits inner d → Fits (.newtype name inner) (.newtype name d)
  | tuple {item : Shape} {items : List Datum} :
      items ≠ [] → (∀ d ∈ items, Fits item d) → Fits (.tuple item items.length) (.tuple items)
  | list {item : Shape} {items : List Datum} :
      (∀ d ∈ items, Fits item d) → Fits (.list item) (.list items)
  | record {name : String} {fields : List (String × Shape)} {parts : List (String × Datum)} :
      (parts.map (·.1)).Nodup → (∀ part ∈ parts, (fields.lookup part.1).isSome) →
        (∀ part ∈ parts, ∀ shape, fields.lookup part.1 = some shape → Fits shape part.2) →
        Fits (.record name fields) (.record name parts)

/-! ### What can be read -/

/-- Brackets nest this deep at most. A pair of brackets takes a level, and so does each value that
stands between them. -/
def maxDepth : Nat := 128

/-- Is this a name that is written as it is: a letter or an underscore, and then letters, digits and
underscores? -/
def isPlainName (name : String) : Bool :=
  match name.toList with
  | [] => false
  | c :: cs => (c.isAlpha || c = '_') && cs.all fun c => c.isAlphanum || c = '_'

namespace Shape

mutual

/-- How many levels a value of the shape takes at most. -/
def depth : Shape → Nat
  | .option inner => inner.depth + 2
  | .choice variants => depths variants + 2
  | .newtype _ inner => inner.depth + 2
  | .tuple item _ => item.depth + 2
  | .list item => item.depth + 2
  | .record _ fields => depths fields + 2
  | _ => 1
termination_by structural s => s

/-- How many levels a value of one of the shapes takes at most. -/
def depths : List (String × Shape) → Nat
  | [] => 0
  | (_, shape) :: rest => max shape.depth (depths rest)
termination_by structural shapes => shapes

end

mutual

/-- The names that may stand in a value of the shape. -/
def names : Shape → List String
  | .option inner => inner.names
  | .units names => names
  | .choice variants => allNames variants
  | .newtype name inner => name :: inner.names
  | .tuple item _ => item.names
  | .list item => item.names
  | .record name fields => name :: allNames fields
  | _ => []
termination_by structural s => s

/-- The names of shapes, and the names that may stand in their values. -/
def allNames : List (String × Shape) → List String
  | [] => []
  | (name, shape) :: rest => name :: (shape.names ++ allNames rest)
termination_by structural shapes => shapes

end

/-- Values of the shape stay within the levels that brackets may nest, and all of their names are
plain. -/
def Readable (s : Shape) : Prop :=
  s.depth ≤ maxDepth ∧ ∀ name ∈ s.names, isPlainName name = true

instance (s : Shape) : Decidable s.Readable := inferInstanceAs (Decidable (_ ∧ _))

end Shape

/-! ### The library -/

/-- What the library does. -/
structure Library where
  /-- Writes a datum on several lines, with the names of its records and wrappers or without; it may
  fail. -/
  print : (names : Bool) → Datum → Option String
  /-- Reads a text that holds one value of a shape. Fields that a record does not know are skipped;
  of the others, all are returned in the order in which they come. -/
  parse : Shape → String → Option Datum

/-- What is relied on of the library, given which texts are RON for a datum. -/
structure Library.Lawful (ron : Library) (Spells : Datum → String → Prop) : Prop where
  /-- What fits a readable shape is written as RON. -/
  print_spells : ∀ {shape : Shape} {d : Datum}, shape.Readable → Fits shape d → ∀ names,
    ∃ text, ron.print names d = some text ∧ Spells d text
  /-- RON for what fits a readable shape is read as just that. -/
  parse_spelled : ∀ {shape : Shape} {d : Datum} {text : String}, shape.Readable → Fits shape d →
    Spells d text → ron.parse shape text = some d

end Sequencer.Ron
