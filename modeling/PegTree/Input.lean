import PegTree.Text.Position

/-!
# `Input` — what a grammar is matched against

An input is a sequence of units addressed by index: the characters of a text, or the tokens of a list
that was cut up beforehand. A literal matches the characters it consists of, or one token equal to it.

## Contents

* `Input.ofString`, `Input.ofTokens`, `Input.size`;
* `Input.unit?` — the text of one unit;
* `Input.matchLiteral?` — where a literal that stands at a unit ends;
* `Input.location?` — line and column of a unit, for inputs that have lines.
-/

namespace PegTree

open Text

/-- A text read one character at a time, or a list of tokens read one token at a time. -/
inductive Input where
  | text (chars : Array Char)
  | tokens (items : Array String)
  deriving Repr

namespace Input

/-- The characters of a string as units. -/
def ofString (source : String) : Input :=
  .text source.toList.toArray

/-- The strings of a list as units. -/
def ofTokens (tokens : List String) : Input :=
  .tokens tokens.toArray

/-- The number of units. -/
def size : Input → Nat
  | .text chars => chars.size
  | .tokens items => items.size

/-- Whether an input has no units. -/
def isEmpty (input : Input) : Bool :=
  input.size == 0

/-- The text of a unit; `none` at the end and past it. -/
def unit? : Input → Nat → Option String
  | .text chars, pos => chars[pos]?.map fun c => String.ofList [c]
  | .tokens items, pos => items[pos]?

/-- Whether the characters of `value` stand in `chars` from index `pos` on. -/
def standsAt (chars : Array Char) : Nat → List Char → Bool
  | _, [] => true
  | pos, c :: value => chars[pos]? == some c && standsAt chars (pos + 1) value

/-- The index just past the literal when it stands at unit `pos`. In a text an empty literal stands at
every index up to the end; in a token list a literal is one token equal to it. -/
def matchLiteral? : Input → Nat → String → Option Nat
  | .text chars, pos, value =>
    let value := value.toList
    if pos ≤ chars.size && standsAt chars pos value then some (pos + value.length) else none
  | .tokens items, pos, value => if items[pos]? = some value then some (pos + 1) else none

/-- Line and column of a unit of a text; the end stands for every index past it. -/
def location? : Input → Nat → Option Position
  | .text chars, pos =>
    let text := chars.toList
    some ((LineIndex.ofText text).position (utf8Length (text.take pos)))
  | .tokens _, _ => none

end Input

end PegTree
