import PegTree.Settings.Value

/-!
# `Settings.Path` — where a value is set

A path is a name followed by further names after a point and by indexes in square brackets. Setting a value
at a path makes tables and arrays on the way of whatever is there.

## Contents

* `Step`, `Path.ofText?`;
* `Value.place` — a value set at a path.
-/

namespace PegTree.Settings

/-- One part of a path. -/
inductive Step where
  | name (name : String)
  | index (index : Int)
  deriving DecidableEq, Repr

/-- The parts of a path; the first is a name. -/
abbrev Path := List Step

/-- A character of a name: an ASCII letter or digit, an underscore, a hyphen or a blank. -/
def isNameChar (c : Char) : Bool :=
  c.isAlphanum || c == '_' || c == '-' || c == ' '

/-- The blanks around an index. -/
def isIndexBlank (c : Char) : Bool :=
  c == ' ' || c == '\t'

/-- The index after an opening bracket, the closing one included. It must fit in 64 bits with a sign. -/
def indexPart? (text : List Char) : Option (Int × List Char) :=
  let text := text.dropWhile isIndexBlank
  let (negative, text) :=
    match text with
    | '-' :: rest => (true, rest)
    | _ => (false, text)
  let (digits, text) := spanDigits text
  let n : Int := if negative then -(digitsValue digits : Int) else digitsValue digits
  if digits.isEmpty || !fitsWord n then none
  else
    match text.dropWhile isIndexBlank with
    | ']' :: rest => some (n, rest)
    | _ => none

/-- The parts of a path after its first name; there are no more than `fuel` of them. -/
def stepsFrom : (fuel : Nat) → List Char → Option Path
  | _, [] => some []
  | 0, _ :: _ => none
  | fuel + 1, c :: rest =>
    if c = '.' then
      let name := rest.takeWhile isNameChar
      if name.isEmpty then none
      else (stepsFrom fuel (rest.dropWhile isNameChar)).map (.name (String.ofList name) :: ·)
    else if c = '[' then do
      let (index, rest) ← indexPart? rest
      let steps ← stepsFrom fuel rest
      some (.index index :: steps)
    else none

/-- The path that a text spells. -/
def Path.ofText? (text : String) : Option Path :=
  let text := text.toList
  let name := text.takeWhile isNameChar
  if name.isEmpty then none
  else (stepsFrom text.length (text.dropWhile isNameChar)).map (.name (String.ofList name) :: ·)

/-- An array position: a negative index counts from the end. -/
def arrayPosition (size : Nat) (index : Int) : Nat :=
  if 0 ≤ index then index.toNat else size - (-index).toNat

/-- Items with enough empty ones added that there is one at a position. -/
def padded (items : List Value) (position : Nat) : List Value :=
  items ++ List.replicate (position + 1 - items.length) Value.nil

/-- Changes the item at an index of a value, which becomes an array. -/
def Value.changeItem (value : Value) (index : Int) (change : Value → Value) : Value :=
  let position := arrayPosition value.items.length index
  let origin :=
    match value with
    | .array origin _ => origin
    | _ => none
  .array origin ((padded value.items position).modify position change)

/-- Sets a value at a path of `target`. -/
def Value.place (value : Value) : Path → Value → Value
  | [], _ => value
  | [.name name], target => target.assign name value
  | .name name :: steps, target =>
    let name := lowerCase name
    target.put name (value.place steps ((target.get? name).getD Value.nil))
  | .index index :: steps, target => target.changeItem index (value.place steps)

end PegTree.Settings
