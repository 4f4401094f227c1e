import PegTree.Text.Bytes

/-!
# `Grammar.Literal` — the escapes of a literal

Between its quotes a literal writes a quote, a backslash and three controls by a backslash and one
character; everything else stands for itself.

## Contents

* `escape` — how a value is written;
* `unescape` — the value of a written body;
* `badEscape?` — the first escape of a body that stands for nothing.
-/

namespace PegTree.Grammar

open Text

/-- How one character of a value is written between quotes. -/
def escapedChar (c : Char) : List Char :=
  if c = '"' then ['\\', '"']
  else if c = '\\' then ['\\', '\\']
  else if c = '\n' then ['\\', 'n']
  else if c = '\t' then ['\\', 't']
  else if c = '\r' then ['\\', 'r']
  else [c]

/-- How a value is written between quotes. -/
def escape (value : List Char) : List Char :=
  value.flatMap escapedChar

/-- The character that a backslash and `c` stand for, if they stand for one. -/
def escaped? (c : Char) : Option Char :=
  if c = '"' then some '"'
  else if c = '\\' then some '\\'
  else if c = 'n' then some '\n'
  else if c = 't' then some '\t'
  else if c = 'r' then some '\r'
  else none

/-- The value of a literal body, read in backslash pairs. A pair that stands for nothing is read as its
second character. -/
def unescape : List Char → List Char
  | [] => []
  | [c] => [c]
  | c :: d :: rest =>
    if c = '\\' then (escaped? d).getD d :: unescape rest else c :: unescape (d :: rest)

/-- The first backslash pair of a body that stands for nothing: the byte offset of its backslash, for a
body that starts at byte `offset`, and its second character. A backslash with nothing after it is paired
with itself. -/
def badEscape? : Nat → List Char → Option (Nat × Char)
  | _, [] => none
  | offset, [c] => if c = '\\' then some (offset, '\\') else none
  | offset, c :: d :: rest =>
    if c = '\\' then
      if (escaped? d).isSome then badEscape? (offset + c.utf8Size + d.utf8Size) rest else some (offset, d)
    else badEscape? (offset + c.utf8Size) (d :: rest)

end PegTree.Grammar
