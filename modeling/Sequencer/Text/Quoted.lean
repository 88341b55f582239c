import Sequencer.Text.Invisible

/-!
# Sequencer.Text.Quoted

Text between double quotes. Every character has one written form: the common controls, quotes and
the backslash are written with a backslash and one letter, invisible characters as `\u` with their
code point in hexadecimal between braces, and all others as they are.
-/

namespace Sequencer.Text

/-- Lower-case hexadecimal digits of a number. -/
def hexDigits (n : Nat) : List Char :=
  Nat.toDigits 16 n

/-- A character by its code point. -/
def codePointEscape (c : Char) : List Char :=
  '\\' :: 'u' :: '\x7b' :: (hexDigits c.toNat ++ ['\x7d'])

/-- The written form of a character inside quotes. A single quote is escaped only on request: it
needs no escape between double quotes. -/
def escapeChar (escapeSingle : Bool) (c : Char) : List Char :=
  if c = '\x00' then ['\\', '0']
  else if c = '\t' then ['\\', 't']
  else if c = '\r' then ['\\', 'r']
  else if c = '\n' then ['\\', 'n']
  else if c = '\\' then ['\\', '\\']
  else if c = '"' then ['\\', '"']
  else if c = '\'' then (if escapeSingle then ['\\', '\''] else ['\''])
  else if isInvisible c then codePointEscape c
  else [c]

/-- Text between quotes, with both kinds of quote escaped. -/
def quotedChars (text : List Char) : List Char :=
  '"' :: (text.flatMap (escapeChar true) ++ ['"'])

/-- Text between quotes, as shown for inspection: a single quote stays as it is. -/
def inspected (text : String) : String :=
  .ofList ('"' :: (text.toList.flatMap (escapeChar false) ++ ['"']))

end Sequencer.Text
