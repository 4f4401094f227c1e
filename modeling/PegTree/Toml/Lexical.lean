import PegTree.Text.Hex

/-!
# `Toml.Lexical` — blanks, keys and strings of TOML text

## Contents

* `skipBlanks`, `skipLines`, `skipGaps`, `lineEnd` — what separates the parts of a text;
* `basicText`, `literalText` and their forms over several lines — strings;
* `levelLimit`, `readKey` — dotted keys.
-/

namespace PegTree.Toml

open Text

/-- Takes something from the front of a text and gives the rest. -/
abbrev Reader (α : Type) := List Char → Option (α × List Char)

/-! ## Separators -/

/-- A blank within a line. -/
def isBlank (c : Char) : Bool :=
  c == ' ' || c == '\t'

/-- A character that may stand in a comment or a string: not a control, except the tab. -/
def isTextChar (c : Char) : Bool :=
  c == '\t' || (0x20 ≤ c.toNat && c.toNat != 0x7F)

/-- The text without the blanks at its front. -/
def skipBlanks (text : List Char) : List Char :=
  text.dropWhile isBlank

/-- The rest of a text after the end of a line at its front. -/
def newline? : List Char → Option (List Char)
  | '\n' :: rest => some rest
  | '\r' :: '\n' :: rest => some rest
  | _ => none

/-- The rest of a text after blanks, a comment and the end of the line. -/
def lineEnd (text : List Char) : Option (List Char) :=
  let text :=
    match skipBlanks text with
    | '#' :: rest => rest.dropWhile isTextChar
    | text => text
  if text.isEmpty then some [] else newline? text

/-- The text without the blanks, line ends and comments at its front. -/
def skipGaps : (inComment : Bool) → List Char → List Char
  | _, [] => []
  | inComment, c :: rest =>
    if inComment && isTextChar c then skipGaps true rest
    else if isBlank c || c == '\n' || (c == '\r' && rest.head? == some '\n') then skipGaps false rest
    else if c == '#' && !inComment then skipGaps true rest
    else c :: rest

/-- The text without the blanks and line ends at its front. -/
def skipLines : List Char → List Char
  | [] => []
  | c :: rest =>
    if isBlank c || c == '\n' || (c == '\r' && rest.head? == some '\n') then skipLines rest
    else c :: rest

/-! ## Strings -/

/-- The character with a code point given by exactly `width` hexadecimal digits. -/
def codePoint (width : Nat) (text : List Char) : Option (Char × List Char) := do
  let digits ← (text.take width).mapM hexDigit?
  let n := digits.foldl (fun n d => n * 16 + d) 0
  if digits.length = width && n.isValidChar then some (Char.ofNat n, text.drop width) else none

/-- The character of an escape, after the backslash. -/
def escapedChar : Reader Char
  | 'b' :: rest => some ('\x08', rest)
  | 't' :: rest => some ('\t', rest)
  | 'n' :: rest => some ('\n', rest)
  | 'f' :: rest => some ('\x0c', rest)
  | 'r' :: rest => some ('\r', rest)
  | '"' :: rest => some ('"', rest)
  | '\\' :: rest => some ('\\', rest)
  | 'u' :: rest => codePoint 4 rest
  | 'U' :: rest => codePoint 8 rest
  | _ => none

/-- Puts a character in front of what has been read. -/
def prepend (c : Char) : Option (List Char × List Char) → Option (List Char × List Char)
  | some (more, rest) => some (c :: more, rest)
  | none => none

/-- A string in double quotes, after the opening one. -/
def basicText : (fuel : Nat) → Reader (List Char)
  | 0, _ => none
  | _ + 1, [] => none
  | fuel + 1, c :: rest =>
    if c = '"' then some ([], rest)
    else if c = '\\' then
      match escapedChar rest with
      | some (value, rest) => prepend value (basicText fuel rest)
      | none => none
    else if isTextChar c then prepend c (basicText fuel rest)
    else none

/-- A string in single quotes, after the opening one; nothing is escaped. -/
def literalText : Reader (List Char)
  | [] => none
  | c :: rest =>
    if c = '\x27' then some ([], rest)
    else if isTextChar c then prepend c (literalText rest)
    else none

/-- Three closing quotes, and up to two more before them that belong to the string. -/
def closing? (quote : Char) (text : List Char) : Option (List Char × List Char) :=
  let run := (text.takeWhile (· == quote)).length
  if run < 3 then none
  else
    let own := min (run - 3) 2
    some (List.replicate own quote, text.drop (own + 3))

/-- The rest of a text after a backslash at the end of a line and the blanks and line ends after it. -/
def continuation? (text : List Char) : Option (List Char) :=
  (newline? (skipBlanks text)).map skipLines

/-- A string in three double or single quotes, after the opening ones; only double ones escape. -/
def longText (quote : Char) : (fuel : Nat) → Reader (List Char)
  | 0, _ => none
  | _ + 1, [] => none
  | fuel + 1, c :: rest =>
    match closing? quote (c :: rest) with
    | some result => some result
    | none =>
      if c = '\\' && quote == '"' then
        match continuation? rest with
        | some rest => longText quote fuel rest
        | none =>
          match escapedChar rest with
          | some (value, rest) => prepend value (longText quote fuel rest)
          | none => none
      else if isTextChar c then prepend c (longText quote fuel rest)
      else
        match newline? (c :: rest) with
        | some rest => prepend '\n' (longText quote fuel rest)
        | none => none

/-- A string at the front of a text; one in three quotes may begin with a line end that does not count. -/
def readString : Reader (List Char)
  | '"' :: '"' :: '"' :: rest => longText '"' (rest.length + 1) ((newline? rest).getD rest)
  | '\x27' :: '\x27' :: '\x27' :: rest => longText '\x27' (rest.length + 1) ((newline? rest).getD rest)
  | '"' :: rest => basicText (rest.length + 1) rest
  | '\x27' :: rest => literalText rest
  | _ => none

/-! ## Keys -/

/-- A character of a key without quotes. -/
def isKeyChar (c : Char) : Bool :=
  c.isAlphanum || c == '_' || c == '-'

/-- One part of a key. -/
def keyPart : Reader String
  | '"' :: rest => (basicText (rest.length + 1) rest).map fun (name, rest) => (String.ofList name, rest)
  | '\x27' :: rest => (literalText rest).map fun (name, rest) => (String.ofList name, rest)
  | text =>
    let name := text.takeWhile isKeyChar
    if name.isEmpty then none else some (String.ofList name, text.dropWhile isKeyChar)

/-- The parts of a key with points between them, the first apart; blanks may stand around each. -/
def keyFrom : (fuel : Nat) → Reader (String × List String)
  | 0, _ => none
  | fuel + 1, text =>
    match keyPart (skipBlanks text) with
    | none => none
    | some (part, rest) =>
      match skipBlanks rest with
      | '.' :: rest =>
        (keyFrom fuel rest).map fun ((next, more), rest) => ((part, next :: more), rest)
      | rest => some ((part, []), rest)

/-- Keys have fewer parts than this, and brackets are open in fewer levels. -/
def levelLimit : Nat := 80

/-- A key: the names of the tables it goes through, and its last name. -/
def readKey : Reader (List String × String) := fun text => do
  let ((part, more), rest) ← keyFrom (text.length + 1) text
  let parts := part :: more
  if parts.length < levelLimit then some ((parts.dropLast, parts.getLastD part), rest) else none

end PegTree.Toml
