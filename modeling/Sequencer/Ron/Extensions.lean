import Sequencer.Ron.Lexer

/-!
# Sequencer.Ron.Extensions

The extensions of the notation that a text can switch on by the attributes at its start.
-/

namespace Sequencer.Ron

open Reads

/-- The extensions that a text can switch on. -/
structure Extensions where
  /-- Wrappers of one value are written without parentheses. -/
  unwrapNewtypes : Bool := false
  /-- Present optional values are written without their mark. -/
  implicitSome : Bool := false
  /-- Wrappers, tuples and records that a tag marks are written without parentheses of their own. -/
  unwrapVariantNewtypes : Bool := false
  /-- Records must be named. -/
  explicitNames : Bool := false
  deriving DecidableEq, Repr

namespace Extensions

/-- Switches on an extension by its name. -/
def enable? (e : Extensions) (name : String) : Option Extensions :=
  match name with
  | "unwrap_newtypes" => some { e with unwrapNewtypes := true }
  | "implicit_some" => some { e with implicitSome := true }
  | "unwrap_variant_newtypes" => some { e with unwrapVariantNewtypes := true }
  | "explicit_struct_names" => some { e with explicitNames := true }
  | _ => none

end Extensions

/-- Takes texts that have to come one after another, with blanks behind each. -/
def expectAll : List (List Char) → Reads Unit
  | [] => return
  | text :: others => do
    guard (← accept text)
    blanks
    expectAll others

/-- Reads the names of extensions, with commas between them; one may stand behind the last. -/
def extensionNames : Nat → Extensions → Reads Extensions
  | 0, _ => failure
  | bound + 1, e => do
    let e ← e.enable? (← identifier)
    if (← comma) && (← peek?).any Text.isIdentifierStart then extensionNames bound e
    else return e

/-- Reads the attributes at the start of a text, on top of extensions that are on already. -/
def attributes : Nat → Extensions → Reads Extensions
  | 0, _ => failure
  | bound + 1, e => do
    if ← sees '#' then
      expectAll ["#".toList, "!".toList, "[".toList, "enable".toList, "(".toList]
      let e ← extensionNames ((← get).length + 1) e
      expectAll [")".toList, "]".toList]
      attributes bound e
    else return e

end Sequencer.Ron
