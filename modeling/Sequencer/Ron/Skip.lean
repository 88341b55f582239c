import Sequencer.Ron.Number
import Sequencer.Ron.Quoted
import Sequencer.Ron.Reader

/-!
# Sequencer.Ron.Skip

Skipping a value of a type that nobody knows, such as the value of an unknown field. It has to be
well-formed all the same, and nested no deeper than allowed.

A bare value behind a mark has no parentheses of its own, so that what it is shows only in what
follows: `bareShape` looks ahead for the name of a field or for a second element.
-/

namespace Sequencer.Ron

open Reads

/-- What follows where a bare value stands. -/
inductive BareShape
  /-- The fields of a record. -/
  | fields
  /-- Several elements of a tuple. -/
  | several
  /-- One value. -/
  | single

/-- Looks for a comma before the closing parenthesis, inside of so many other brackets; does an
element follow it? Literals count as a whole, and brackets in them do not count; where text or bytes
have no end there is no answer, and what else is wrong with a literal does not matter here. -/
def secondElement : Nat → Nat → Reads BareShape
  | 0, _ => failure
  | bound + 1, nesting => do
    blanks
    let _ ← attempt charLiteral
    guard !unclosedText (← get)
    let _ ← attempt text
    guard !unclosedBytes (← get)
    let _ ← attempt byteString
    let c ← next
    if ['(', '[', '\x7b'].contains c then secondElement bound (nesting + 1)
    else if [')', ']', '\x7d'].contains c then
      if nesting = 0 then return .single else secondElement bound (nesting - 1)
    else if c = ',' ∧ nesting = 0 then
      blanks
      return if ← sees ')' then .single else .several
    else secondElement bound nesting

/-- Tells the shape of a bare value, of which nothing is taken. -/
def bareShape : Reads BareShape := ahead do
  blanks
  let search := do secondElement ((← get).length + 1) 0
  match ← attempt identifier with
  | none => search
  | some _ =>
    blanks
    match ← peek? with
    | some ':' => return .fields
    | some ',' =>
      let _ ← next
      blanks
      return if ← sees ')' then .single else .several
    | some ')' => return .single
    | _ => search

/-- Do fields follow, and not elements? -/
def fieldsAhead : Reads Bool := ahead do
  blanks
  match ← attempt identifier with
  | none => return false
  | some _ =>
    blanks
    sees ':'

/-- Skips fields up to the closing parenthesis. -/
def skipFields (value : Reads Unit) : Reads Unit := do
  let field := do
    let _ ← identifier
    colon
    value
  let _ ← elements field ')'

/-- Skips elements up to a closing character. -/
def skipElements (value : Reads Unit) (close : Char) : Reads Unit := do
  let _ ← elements value close

/-- Skips what stands between brackets, and the brackets. -/
def skipBracketed (value : Reads Unit) : Reads Unit := do
  match ← next with
  | '(' =>
    if ← fieldsAhead then skipFields value else skipElements value ')'
    expect ')'
  | '[' =>
    skipElements value ']'
    expect ']'
  | '\x7b' =>
    let entry := do
      value
      colon
      value
    skipElements entry '\x7d'
    expect '\x7d'
  | _ => failure

/-- Skips a literal. -/
def skipLiteral : Reads Unit := do
  match ← get with
  | '"' :: _ | 'r' :: _ =>
    let _ ← text
  | '\'' :: _ =>
    let _ ← charLiteral
  | 'b' :: '\'' :: _ => byteLiteral
  | 'b' :: _ => byteString
  | c :: _ =>
    guard (c.isDigit || ['+', '-', '.'].contains c)
    anyNumber
  | [] => failure

/-- The words that are values by themselves. -/
def wordValues : List String :=
  ["true", "false", "None", "inf", "inff32", "inff64", "NaN", "NaNf32", "NaNf64"]

/-- How the values inside of a value are skipped. -/
structure Inside where
  /-- Values between brackets. -/
  between : Reads Unit
  /-- A value that is marked as present; is it bare? -/
  marked : Bool → Reads Unit

/-- Skips a value with parentheses of its own. Without a way to skip what it contains, it must not
contain anything. -/
def skipWhole (e : Extensions) (inside : Option Inside) : Reads Unit := do
  if ← oneWord wordValues then return
  if ← ahead (word "Some") then
    let inside ← inside
    let _ ← option e (inside.marked e.unwrapVariantNewtypes) (inside.marked false)
  else if !(← accept ['(', ')']) then
    let named := (← attempt identifier).isSome
    if named then blanks
    if (← peek?).any (if named then ['('] else ['(', '[', '\x7b']).contains then
      skipBracketed (← inside).between
    else if !named then skipLiteral

/-- Skips a bare value up to the closing parenthesis of its tag. -/
def skipBare (e : Extensions) (inside : Option Inside) : Reads Unit := do
  if ← sees ')' then return
  match ← bareShape with
  | .fields => skipFields (← inside).between
  | .several => skipElements (← inside).between ')'
  | .single => skipWhole e inside

/-- Skips a value, nested so deep at most. -/
def skip (e : Extensions) : Nat → Bool → Reads Unit
  | depth, bare =>
    let inside : Option Inside :=
      match depth with
      | 0 => none
      | 1 => some ⟨failure, skip e 0⟩
      | depth + 2 => some ⟨skip e depth false, skip e (depth + 1)⟩
    if bare then skipBare e inside else skipWhole e inside

end Sequencer.Ron
