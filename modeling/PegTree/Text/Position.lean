import PegTree.Text.Bytes

/-!
# `Text.Position` — spans, and lines and columns

A `Span` is a half-open range of offsets. A `Position` is a line and a column, both counted from zero,
the column in characters. A `LineIndex` remembers where the lines of a text start and answers the
position of a byte offset.

## Contents

* `Span`, `Position` and the text `line:column`;
* `LineIndex.ofText`, `LineIndex.position`, `LineIndex.lineStart?`.
-/

namespace PegTree.Text

/-- A half-open range of offsets. -/
structure Span where
  start : Nat
  stop : Nat
  deriving DecidableEq, Repr, Inhabited

/-- A line and a column, both counted from zero. -/
structure Position where
  line : Nat
  column : Nat
  deriving DecidableEq, Repr, Inhabited

/-- The text `line:column`. -/
def Position.text (p : Position) : String :=
  toString p.line ++ ":" ++ toString p.column

/-! ## Line starts -/

/-- The byte offsets just past each newline of a text that begins at byte `offset`. -/
def newlineStops : Nat → List Char → List Nat
  | _, [] => []
  | offset, c :: cs =>
    let next := offset + c.utf8Size
    if c = '\n' then next :: newlineStops next cs else newlineStops next cs

/-- A text together with the byte offsets at which its lines start, in ascending order. -/
structure LineIndex where
  text : List Char
  starts : List Nat
  deriving Repr

namespace LineIndex

/-- The first line starts at byte 0 and every other line just past a newline. -/
def ofText (text : List Char) : LineIndex :=
  ⟨text, 0 :: newlineStops 0 text⟩

/-- The number of lines; a text without a newline has one. -/
def lineCount (index : LineIndex) : Nat :=
  index.starts.length

/-- The byte offset at which a line starts. -/
def lineStart? (index : LineIndex) (line : Nat) : Option Nat :=
  index.starts[line]?

/-- The last line that starts at or before the offset. -/
def lineOf (index : LineIndex) (offset : Nat) : Nat :=
  (index.starts.takeWhile (· ≤ offset)).length - 1

/-- The position of a byte offset; offsets past the end stand for the end. The column counts the
characters since the start of the line, or the bytes when the offset lies inside a character. -/
def position (index : LineIndex) (offset : Nat) : Position :=
  let offset := min offset (utf8Length index.text)
  let line := index.lineOf offset
  let start := index.starts.getD line 0
  let width := offset - start
  ⟨line, (charsFilling? width (dropBytes start index.text)).getD width⟩

end LineIndex

end PegTree.Text
