import Sequencer.Text.Quoted

/-!
# Sequencer.Ron.Term

Values of the object notation RON as they are written.

`Term.pretty` writes a term: lists and records with one element to a line, a comma behind each, and
four spaces of indentation for each level; everything else on one line, also what is empty.
-/

namespace Sequencer.Ron

/-- A value to be written. -/
inductive Term
  /-- A word or a number. -/
  | plain (chars : List Char)
  /-- Text between double quotes. -/
  | text (chars : List Char)
  /-- Elements between brackets. -/
  | list (items : List Term)
  /-- Elements between parentheses, with a name in front or not. -/
  | tuple (name : Option String) (items : List Term)
  /-- Named fields between parentheses, with a name in front or not. -/
  | record (name : Option String) (fields : List (String × Term))

namespace Term

/-- A word. -/
def word (s : String) : Term := .plain s.toList

/-- A whole number. -/
def integer (n : Int) : Term := .plain (toString n).toList

/-- One element between parentheses. -/
def wrapped (inner : Term) : Term := .tuple none [inner]

/-- One element between parentheses behind a name. -/
def tagged (tag : String) (inner : Term) : Term := .tuple (some tag) [inner]

/-- The indentation of a level. -/
def indentation (level : Nat) : List Char := List.replicate (4 * level) ' '

/-- The characters of an optional name. -/
def nameChars : Option String → List Char
  | none => []
  | some name => name.toList

mutual

/-- Writes a term at a level of indentation. -/
def pretty (level : Nat) : Term → List Char
  | .plain chars => chars
  | .text chars => Text.quotedChars chars
  | .list [] => ['[', ']']
  | .list (item :: rest) =>
    '[' :: '\n' :: (prettyLines (level + 1) (item :: rest) ++ indentation level ++ [']'])
  | .tuple name items => nameChars name ++ '(' :: (prettyItems level items ++ [')'])
  | .record name [] => nameChars name ++ ['(', ')']
  | .record name (field :: rest) =>
    nameChars name ++ '(' :: '\n' ::
      (prettyFields (level + 1) (field :: rest) ++ indentation level ++ [')'])
termination_by structural t => t

/-- Writes the elements of a list, one to a line. -/
def prettyLines (level : Nat) : List Term → List Char
  | [] => []
  | item :: rest =>
    indentation level ++ pretty level item ++ ',' :: '\n' :: prettyLines level rest
termination_by structural ts => ts

/-- Writes the elements of a tuple on one line. -/
def prettyItems (level : Nat) : List Term → List Char
  | [] => []
  | [item] => pretty level item
  | item :: rest => pretty level item ++ ',' :: ' ' :: prettyItems level rest
termination_by structural ts => ts

/-- Writes the fields of a record, one to a line. -/
def prettyFields (level : Nat) : List (String × Term) → List Char
  | [] => []
  | (name, value) :: rest =>
    indentation level ++ name.toList ++ ':' :: ' ' ::
      (pretty level value ++ ',' :: '\n' :: prettyFields level rest)
termination_by structural fs => fs

end

end Term

end Sequencer.Ron
