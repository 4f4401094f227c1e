/-!
# `Json.Fault` — why a text is not the JSON that was asked for
-/

namespace PegTree.Json

/-- What is wrong with a text, or with the value it spells. -/
inductive Fault where
  /-- The text is not JSON. -/
  | malformed
  /-- The text is JSON so far, and its value is not of the form asked for. -/
  | unfit
  /-- The text ends too early. -/
  | truncated
  deriving DecidableEq, Repr

/-- A reader takes something from the front of a text and gives the rest. -/
abbrev Reader (α : Type) := List Char → Except Fault (α × List Char)

/-- A blank between the parts of a JSON text. -/
def isBlank (c : Char) : Bool :=
  c == ' ' || c == '\n' || c == '\t' || c == '\r'

/-- The text without the blanks at its front. -/
def skipBlanks (text : List Char) : List Char :=
  text.dropWhile isBlank

/-- Takes the given characters off the front, one after the other. -/
def word : List Char → List Char → Except Fault (List Char)
  | [], text => .ok text
  | _ :: _, [] => .error .truncated
  | c :: cs, d :: text => if c = d then word cs text else .error .malformed

end PegTree.Json
