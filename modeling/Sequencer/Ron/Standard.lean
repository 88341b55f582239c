import Sequencer.Ron.Record
import Sequencer.Ron.Term

/-!
# Sequencer.Ron.Standard

A library that writes and reads RON: data are turned into terms, which `Term.pretty` writes, and
each shape has a reader.
-/

namespace Sequencer.Ron

open Reads

namespace Datum

/-- The name of a record or wrapper, if names are written. -/
def heading (names : Bool) (name : String) : Option String := if names then some name else none

mutual

/-- A datum as a term, with the names of records and wrappers or without. -/
def toTerm (names : Bool) : Datum → Term
  | .bool b => .word (toString b)
  | .integer n => .integer n
  | .single x => .plain x.literalChars
  | .double x => .plain x.literalChars
  | .text s => .text s.toList
  | .absent => .word "None"
  | .present inner => .tagged "Some" (inner.toTerm names)
  | .unit name => .word name
  | .variant name inner => .tagged name (inner.toTerm names)
  | .newtype name inner => .tuple (heading names name) [inner.toTerm names]
  | .tuple items => .tuple none (toTerms names items)
  | .list items => .list (toTerms names items)
  | .record name fields => .record (heading names name) (fieldTerms names fields)
termination_by structural d => d

/-- Data as terms. -/
def toTerms (names : Bool) : List Datum → List Term
  | [] => []
  | d :: rest => d.toTerm names :: toTerms names rest
termination_by structural ds => ds

/-- Fields as terms. -/
def fieldTerms (names : Bool) : List (String × Datum) → List (String × Term)
  | [] => []
  | (name, d) :: rest => (name, d.toTerm names) :: fieldTerms names rest
termination_by structural fields => fields

end

end Datum

namespace Shape

mutual

/-- Reads a value of a shape that may nest so deep. -/
def reader (e : Extensions) : Shape → (depth : Nat) → (bare : Bool) → Reads Datum
  | .bool, _, _ => .bool <$> Ron.bool
  | .integer type, _, _ => .integer <$> Ron.integer type
  | .single, _, _ => .single <$> number .single
  | .double, _, _ => .double <$> number .double
  | .text, _, _ => (.text <| .ofList ·) <$> Ron.text
  | .option inner, depth, _ => do
    let marked := inner.reader e (between depth) e.unwrapVariantNewtypes
    match ← Ron.option e marked (inner.reader e (depth - 1) false) with
    | none => return .absent
    | some d => return .present d
  | .units names, _, _ => do
    let name ← identifier
    guard (names.contains name)
    return .unit name
  | .choice variants, depth, _ => do
    let name ← identifier
    let some inner := (readers e variants (between depth) e.unwrapVariantNewtypes).lookup name
      | failure
    .variant name <$> enclosed inner
  | .newtype name inner, depth, bare =>
    .newtype name <$> wrapped e name (inner.reader e (between depth) false) bare
  | .tuple item count, depth, bare =>
    .tuple <$> Ron.tuple (item.reader e (between depth) false) count bare
  | .list item, depth, _ => .list <$> Ron.list (item.reader e (between depth) false)
  | .record name fields, depth, bare =>
    .record name <$> Ron.record e depth name (readers e fields (between depth) false) bare
termination_by structural s => s

/-- How values of several shapes are read, by name. -/
def readers (e : Extensions) :
    List (String × Shape) → (depth : Nat) → (bare : Bool) → List (String × Reads Datum)
  | [], _, _ => []
  | (name, shape) :: rest, depth, bare =>
    (name, shape.reader e depth bare) :: readers e rest depth bare
termination_by structural shapes => shapes

end

end Shape

/-- The library that writes terms on several lines, and reads each shape by its reader. -/
def standard : Library where
  print names d := some (.ofList ((d.toTerm names).pretty 0))
  parse shape text := document (fun e => shape.reader e maxDepth false) text.toList

end Sequencer.Ron
