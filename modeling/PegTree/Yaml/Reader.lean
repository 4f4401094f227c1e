import PegTree.Yaml.Scalar

/-!
# `Yaml.Reader` — strings from YAML scalars

Reads a scalar of each of the four styles back, up to and with the end of its last line.
-/

namespace PegTree.Yaml

open Text

/-- Takes something from the front of a text and gives the rest. -/
abbrev Reader (α : Type) := List Char → Option (α × List Char)

/-- Takes the given characters off the front. -/
def expect : List Char → List Char → Option (List Char)
  | [], text => some text
  | _ :: _, [] => none
  | c :: cs, d :: text => if c = d then expect cs text else none

/-- The text without the margin of a further line. -/
def dropMargin (text : List Char) : List Char :=
  text.dropWhile (· == ' ')

/-- A string in single quotes, after the opening one. -/
def singleQuotedText : (fuel : Nat) → Reader (List Char)
  | 0, _ => none
  | _ + 1, [] => none
  | fuel + 1, c :: rest =>
    if c = '\x27' then
      match rest with
      | '\x27' :: rest => (singleQuotedText fuel rest).map fun (more, rest) => (c :: more, rest)
      | _ => some ([], rest)
    else
      let rest := if isLineEnd c then dropMargin rest else rest
      (singleQuotedText fuel rest).map fun (more, rest) => (c :: more, rest)

/-- The character that a letter stands for after a backslash. -/
def shortEscaped? (letter : Char) : Option Char :=
  if letter = '0' then some '\x00'
  else if letter = 'a' then some '\x07'
  else if letter = 'b' then some '\x08'
  else if letter = 't' then some '\t'
  else if letter = 'n' then some '\n'
  else if letter = 'v' then some '\x0b'
  else if letter = 'f' then some '\x0c'
  else if letter = 'r' then some '\r'
  else if letter = 'e' then some '\x1b'
  else if letter = '"' then some '"'
  else if letter = '\\' then some '\\'
  else if letter = 'N' then some '\x85'
  else if letter = 'L' then some '\u2028'
  else if letter = 'P' then some '\u2029'
  else none

/-- The character of an escape, after the backslash. -/
def escapedChar : Reader Char
  | [] => none
  | letter :: rest =>
    let width := if letter = 'x' then 2 else if letter = 'u' then 4 else if letter = 'U' then 8 else 0
    if width = 0 then (shortEscaped? letter).map fun c => (c, rest)
    else if rest.length < width then none
    else (digitsIn? 16 (rest.take width)).map fun n => (Char.ofNat n, rest.drop width)

/-- A string in double quotes, after the opening one. -/
def doubleQuotedText : (fuel : Nat) → Reader (List Char)
  | 0, _ => none
  | _ + 1, [] => none
  | fuel + 1, c :: rest =>
    if c = '"' then some ([], rest)
    else if c = '\\' then do
      let (value, rest) ← escapedChar rest
      let (more, rest) ← doubleQuotedText fuel rest
      some (value :: more, rest)
    else (doubleQuotedText fuel rest).map fun (more, rest) => (c :: more, rest)

/-- The lines of a block with their ends: every line that is empty or begins with the margin. `fresh` says
whether a line starts here. -/
def blockText (indent : Nat) : (fuel : Nat) → (fresh : Bool) → List Char → List Char × List Char
  | 0, _, text => ([], text)
  | _ + 1, _, [] => ([], [])
  | fuel + 1, fresh, c :: rest =>
    if isLineEnd c then
      let (more, rest) := blockText indent fuel true rest
      (c :: more, rest)
    else if fresh then
      match expect (margin indent) (c :: rest) with
      | some inner => blockText indent fuel false inner
      | none => ([], c :: rest)
    else
      let (more, rest) := blockText indent fuel false rest
      (c :: more, rest)

/-- The text of a block with its last line ends kept as the marks after its bar say. -/
def chomp (marks text : List Char) : List Char :=
  if marks.contains '+' then text
  else
    let ends := text.reverse.takeWhile isLineEnd
    let body := text.take (text.length - ends.length)
    if marks.contains '-' then body else body ++ ends.reverse.take 1

/-- A scalar up to and with the end of its last line. `indent` is the margin of its further lines. -/
def readScalar (indent : Nat) : Reader (List Char)
  | '\x27' :: rest => do
    let (value, rest) ← singleQuotedText (rest.length + 1) rest
    let rest ← expect ['\n'] rest
    some (value, rest)
  | '"' :: rest => do
    let (value, rest) ← doubleQuotedText (rest.length + 1) rest
    let rest ← expect ['\n'] rest
    some (value, rest)
  | '|' :: rest => do
    let marks := rest.takeWhile (· != '\n')
    let rest ← expect ['\n'] (rest.dropWhile (· != '\n'))
    let (value, rest) := blockText indent (2 * rest.length + 1) true rest
    some (chomp marks value, rest)
  | text => do
    let rest ← expect ['\n'] (text.dropWhile (· != '\n'))
    some (text.takeWhile (· != '\n'), rest)

end PegTree.Yaml
