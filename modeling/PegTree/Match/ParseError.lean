import PegTree.Text.Position
import PegTree.Text.Quoted

/-!
# `Match.ParseError` — an input that the grammar does not accept

A parse error names its kind, the unit it is about, what could have stood there and what stands there.
-/

namespace PegTree

open Text

/-- Why an input is not accepted. -/
inductive ParseError.Kind where
  /-- The start rule does not match. -/
  | noMatch
  /-- The start rule matches and leaves units behind. -/
  | trailingInput
  /-- Rules nest deeper than allowed. -/
  | recursionLimit
  /-- The start rule is not declared. -/
  | unknownRule (name : String)
  deriving DecidableEq, Repr

/-- The kind in words. -/
def ParseError.Kind.text : ParseError.Kind → String
  | .noMatch => "no match"
  | .trailingInput => "unconsumed input"
  | .recursionLimit => "recursion limit exceeded"
  | .unknownRule name => "unknown rule '" ++ name ++ "'"

/-- An input that the grammar does not accept: the unit at `position`, its line and column if the input
has lines, what could have stood there, and what stands there unless the input ends. -/
structure ParseError where
  kind : ParseError.Kind
  position : Nat
  location : Option Position := none
  expected : List String := []
  found : Option String := none
  deriving DecidableEq, Repr

namespace ParseError

/-- The expectations in words. -/
def expectedText (error : ParseError) : String :=
  if error.expected.isEmpty then "nothing" else " or ".intercalate error.expected

/-- What was found, in words. -/
def foundText (error : ParseError) : String :=
  match error.found with
  | some unit => quoted unit
  | none => "end of input"

/-- Line and column in brackets, if there are any. -/
def locationText (error : ParseError) : String :=
  match error.location with
  | some location => " (" ++ location.text ++ ")"
  | none => ""

/-- The error in words. -/
def message (error : ParseError) : String :=
  error.kind.text ++ " at position " ++ toString error.position ++ error.locationText
    ++ ": expected " ++ error.expectedText ++ ", found " ++ error.foundText

end ParseError

end PegTree
