import PegTree.Json.Fault
import PegTree.Text.Bytes
import PegTree.Text.Hex

/-!
# `Json.Quoted` — JSON strings

Writing escapes the quote, the backslash and the controls below U+0020 and nothing else. Reading takes
every escape of the format; a character above U+FFFF may be written as two escapes that belong together.

## Contents

* `quotedChar`, `quoted` — writing;
* `codeUnit`, `escapedChar`, `stringFrom`, `readString` — reading;
* `skipString` — passing over a string without looking at what its escapes stand for.
-/

namespace PegTree.Json

open Text

/-! ## Writing -/

/-- How one character is written in a string. -/
def quotedChar (c : Char) : List Char :=
  if c = '"' then ['\\', '"']
  else if c = '\\' then ['\\', '\\']
  else if c = '\x08' then ['\\', 'b']
  else if c = '\x0c' then ['\\', 'f']
  else if c = '\n' then ['\\', 'n']
  else if c = '\r' then ['\\', 'r']
  else if c = '\t' then ['\\', 't']
  else if c.toNat < 0x20 then '\\' :: 'u' :: hexPadded 4 c.toNat
  else [c]

/-- A text as a string. -/
def quoted (text : List Char) : List Char :=
  '"' :: (text.flatMap quotedChar ++ ['"'])

/-! ## Reading -/

/-- The four hexadecimal digits at the front of a text. -/
def codeUnit : Reader Nat
  | a :: b :: c :: d :: rest =>
    match hexDigit? a, hexDigit? b, hexDigit? c, hexDigit? d with
    | some a, some b, some c, some d => .ok (((a * 16 + b) * 16 + c) * 16 + d, rest)
    | _, _, _, _ => .error .malformed
  | text => if utf8Length text < 4 then .error .truncated else .error .malformed

/-- The second half of a pair of escapes: a backslash, a letter `u` and a low surrogate. -/
def lowSurrogate : Reader Nat
  | [] => .error .truncated
  | ['\\'] => .error .truncated
  | '\\' :: 'u' :: rest =>
    match codeUnit rest with
    | .error fault => .error fault
    | .ok (unit, rest) =>
      if 0xDC00 ≤ unit ∧ unit ≤ 0xDFFF then .ok (unit, rest) else .error .malformed
  | _ => .error .malformed

/-- The character of an escape by code units, after the letter `u`. -/
def codePoint : Reader Char := fun text =>
  match codeUnit text with
  | .error fault => .error fault
  | .ok (unit, rest) =>
    if 0xDC00 ≤ unit ∧ unit ≤ 0xDFFF then .error .malformed
    else if 0xD800 ≤ unit ∧ unit ≤ 0xDBFF then
      match lowSurrogate rest with
      | .error fault => .error fault
      | .ok (low, rest) => .ok (Char.ofNat (0x10000 + (unit - 0xD800) * 0x400 + (low - 0xDC00)), rest)
    else .ok (Char.ofNat unit, rest)

/-- The character that a backslash and one character stand for. -/
def shortEscape? (c : Char) : Option Char :=
  if c = '"' then some '"'
  else if c = '\\' then some '\\'
  else if c = '/' then some '/'
  else if c = 'b' then some '\x08'
  else if c = 'f' then some '\x0c'
  else if c = 'n' then some '\n'
  else if c = 'r' then some '\r'
  else if c = 't' then some '\t'
  else none

/-- The character of an escape, after the backslash. -/
def escapedChar : Reader Char
  | [] => .error .truncated
  | c :: rest =>
    if c = 'u' then codePoint rest
    else
      match shortEscape? c with
      | some value => .ok (value, rest)
      | none => .error .malformed

/-- The characters of a string up to its closing quote, at most `fuel` of them. -/
def stringFrom : (fuel : Nat) → Reader (List Char)
  | 0, _ => .error .truncated
  | _ + 1, [] => .error .truncated
  | fuel + 1, c :: rest =>
    if c = '"' then .ok ([], rest)
    else if c = '\\' then
      match escapedChar rest with
      | .error fault => .error fault
      | .ok (value, rest) => (stringFrom fuel rest).map fun (more, rest) => (value :: more, rest)
    else if c.toNat < 0x20 then .error .malformed
    else (stringFrom fuel rest).map fun (more, rest) => (c :: more, rest)

/-- The text of a string, after its opening quote. -/
def readString : Reader (List Char) := fun text =>
  stringFrom (text.length + 1) text

/-! ## Passing over -/

/-- Passes over a string up to its closing quote. Four hexadecimal digits may spell any code unit. -/
def skipStringFrom : (fuel : Nat) → List Char → Except Fault (List Char)
  | 0, _ => .error .truncated
  | _ + 1, [] => .error .truncated
  | fuel + 1, c :: rest =>
    if c = '"' then .ok rest
    else if c = '\\' then
      match rest with
      | [] => .error .truncated
      | d :: rest =>
        if d = 'u' then
          match codeUnit rest with
          | .error fault => .error fault
          | .ok (_, rest) => skipStringFrom fuel rest
        else if (shortEscape? d).isSome then skipStringFrom fuel rest
        else .error .malformed
    else if c.toNat < 0x20 then .error .malformed
    else skipStringFrom fuel rest

/-- Passes over a string, after its opening quote. -/
def skipString (text : List Char) : Except Fault (List Char) :=
  skipStringFrom (text.length + 1) text

end PegTree.Json
