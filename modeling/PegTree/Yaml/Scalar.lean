import PegTree.Decimal.Binary64
import PegTree.Text.Hex

/-!
# `Yaml.Scalar` — strings as YAML scalars

A string is written plainly if it then reads back as that string. A string that would read as something
else, or that has a meaning at its place, is put in single quotes; one with line ends becomes a block of
its own lines; one with characters that cannot be shown is put in double quotes and escaped.

## Contents

* `readsAsOther` — whether a plain scalar would be taken for a null, a truth value or a number;
* `isShown`, `isLineEnd`, `plainAllowed` — what the styles can hold;
* `Style`, `styleOf` — which style a string gets;
* `scalar` — the string in its style.
-/

namespace PegTree.Yaml

open Text

/-! ## Scalars that are not strings -/

/-- Whether a scalar reads as null. -/
def readsAsNull (text : List Char) : Bool :=
  ["", "null", "Null", "NULL", "~"].any (·.toList == text)

/-- Whether a scalar reads as a truth value. -/
def readsAsBool (text : List Char) : Bool :=
  ["true", "True", "TRUE", "false", "False", "FALSE"].any (·.toList == text)

/-- The text without a sign at its front. -/
def withoutSign (text : List Char) : List Char :=
  match text with
  | '+' :: rest => rest
  | '-' :: rest => rest
  | _ => text

/-- Whether a scalar has only digits after its sign and begins with a zero that is not alone. -/
def isPaddedNumber (text : List Char) : Bool :=
  match withoutSign text with
  | '0' :: rest => !rest.isEmpty && rest.all isDigit
  | _ => false

/-- The value of digits of a base, of which there must be one. -/
def digitsIn? (base : Nat) (digits : List Char) : Option Nat :=
  if digits.isEmpty then none
  else
    digits.foldl (fun value c => do
      let value ← value
      let digit ← hexDigit? c
      if digit < base then some (value * base + digit) else none) (some 0)

/-- The value of a number without a sign: decimal, or in base 16, 8 or 2 after a mark. -/
def magnitude? (text : List Char) : Option Nat :=
  match text with
  | '0' :: 'x' :: digits => digitsIn? 16 digits
  | '0' :: 'o' :: digits => digitsIn? 8 digits
  | '0' :: 'b' :: digits => digitsIn? 2 digits
  | digits => digitsIn? 10 digits

/-- Whether a scalar reads as a whole number of at most 128 bits. -/
def readsAsWhole (text : List Char) : Bool :=
  !isPaddedNumber text &&
    match text with
    | '-' :: rest => (magnitude? rest).any (· ≤ twoPow 127)
    | '+' :: rest => (magnitude? rest).any (· < twoPow 128)
    | _ => (magnitude? text).any (· < twoPow 128)

/-- Whether a scalar reads as a number with a point or an exponent, as infinity or as not a number. -/
def readsAsFloat (text : List Char) : Bool :=
  !isPaddedNumber text &&
    (["", "+", "-"].any (fun sign => [".inf", ".Inf", ".INF"].any (fun inf => (sign ++ inf).toList == text))
      || [".nan", ".NaN", ".NAN"].any (·.toList == text)
      || match (Decimal.ofText? text).map Decimal.toBinary64 with
        | some (.finite _ _ _) => true
        | _ => false)

/-- Whether a plain scalar would be taken for something other than a string, or looks like a number. -/
def readsAsOther (text : List Char) : Bool :=
  readsAsNull text || readsAsBool text || isPaddedNumber text || readsAsWhole text || readsAsFloat text

/-! ## What the styles can hold -/

/-- Whether a character is shown as it is. -/
def isShown (c : Char) : Bool :=
  let n := c.toNat
  n == 0x0A || (0x20 ≤ n && n ≤ 0x7E) || (0xA0 ≤ n && n ≤ 0xD7FF)
    || (0xE000 ≤ n && n ≤ 0xFFFD && n != 0xFEFF) || 0x10000 ≤ n

/-- A character that ends a line. -/
def isLineEnd (c : Char) : Bool :=
  c == '\n' || c == '\r' || c == '\x85' || c == '\u2028' || c == '\u2029'

/-- A blank, or the end of a line. -/
def isGap (c : Char) : Bool :=
  c == ' ' || c == '\t' || isLineEnd c

/-- Whether two neighbouring characters satisfy a test somewhere in a text. -/
def anyPair (test : Char → Char → Bool) : List Char → Bool
  | a :: b :: rest => test a b || anyPair test (b :: rest)
  | _ => false

/-- Whether a gap or the end of the text comes first. -/
def startsWithGap : List Char → Bool
  | [] => true
  | c :: _ => isGap c

/-- Whether the first character of a text has a meaning where a value is expected. -/
def startsSpecially (text : List Char) : Bool :=
  match text with
  | [] => false
  | c :: rest =>
    "#,[]\x7b\x7d&*!|>'\"%@\x60".toList.contains c
      || ((c == '?' || c == ':' || c == '-') && startsWithGap rest)

/-- Whether a text has a colon before a gap, or a number sign after one, behind its first character. -/
def hasMark (text : List Char) : Bool :=
  anyPair (fun a b => (a == ':' && isGap b) || (isGap a && b == '#')) text
    || text.getLast? == some ':'

/-- Whether a text may stand without quotes. -/
def plainAllowed (text : List Char) : Bool :=
  !(text.head?.any isGap || text.getLast?.any isGap || text.any isLineEnd
    || text.take 3 == ['-', '-', '-'] || text.take 3 == ['.', '.', '.']
    || startsSpecially text || hasMark text)

/-- Whether a blank stands directly before the end of a line. -/
def hasTrailingBlank (text : List Char) : Bool :=
  anyPair (fun a b => a == ' ' && isLineEnd b) text

/-- Whether a line after the first starts with a blank. -/
def hasLeadingBlank (text : List Char) : Bool :=
  anyPair (fun a b => isLineEnd a && b == ' ') text

/-! ## Styles -/

/-- How a string is written. -/
inductive Style where
  | plain
  | singleQuoted
  | doubleQuoted
  | block
  deriving DecidableEq, Repr

/-- The style of a string. -/
def styleOf (text : List Char) : Style :=
  if !text.all isShown || hasTrailingBlank text then .doubleQuoted
  else if text.contains '\n' then if text.getLast? == some ' ' then .doubleQuoted else .block
  else if readsAsOther text || !plainAllowed text then
    if hasLeadingBlank text then .doubleQuoted else .singleQuoted
  else .plain

/-! ## Writing -/

/-- The blanks in front of the further lines of a scalar. -/
def margin (indent : Nat) : List Char :=
  List.replicate indent ' '

/-- A text in single quotes, after the opening one. The first character after a line end is moved in, and
so is the closing quote; `fresh` says whether a line end came just before. -/
def singleQuotedFrom (indent : Nat) (fresh : Bool) : List Char → List Char
  | [] => (if fresh then margin indent else []) ++ ['\x27']
  | c :: rest =>
    if isLineEnd c then c :: singleQuotedFrom indent true rest
    else
      (if fresh then margin indent else []) ++ (if c = '\x27' then ['\x27', '\x27'] else [c])
        ++ singleQuotedFrom indent false rest

/-- The letter that stands for a character after a backslash, if one does. -/
def shortEscape? (c : Char) : Option Char :=
  match c.toNat with
  | 0x00 => some '0'
  | 0x07 => some 'a'
  | 0x08 => some 'b'
  | 0x09 => some 't'
  | 0x0A => some 'n'
  | 0x0B => some 'v'
  | 0x0C => some 'f'
  | 0x0D => some 'r'
  | 0x1B => some 'e'
  | 0x22 => some '"'
  | 0x5C => some '\\'
  | 0x85 => some 'N'
  | 0x2028 => some 'L'
  | 0x2029 => some 'P'
  | _ => none

/-- How one character is written in double quotes. -/
def doubleQuotedChar (c : Char) : List Char :=
  match shortEscape? c with
  | some letter => ['\\', letter]
  | none =>
    if isShown c then [c]
    else if c.toNat ≤ 0xFF then '\\' :: 'x' :: hexCapital 2 c.toNat
    else if c.toNat ≤ 0xFFFF then '\\' :: 'u' :: hexCapital 4 c.toNat
    else '\\' :: 'U' :: hexCapital 8 c.toNat

/-- The marks after the bar that opens a block: the width of the margin if the text begins with a blank or
a line end, and how the line ends at the end of the text are kept. -/
def blockMarks (text : List Char) : List Char :=
  (if text.head?.any (fun c => c == ' ' || isLineEnd c) then ['2'] else [])
    ++ match text.reverse with
      | [] => ['-']
      | last :: before =>
        if !isLineEnd last then ['-']
        else if before.head?.all isLineEnd then ['+'] else []

/-- The lines of a block, each that is not empty moved in; `fresh` says whether a line starts here. -/
def blockFrom (indent : Nat) (fresh : Bool) : List Char → List Char
  | [] => if fresh then [] else ['\n']
  | c :: rest =>
    if isLineEnd c then c :: blockFrom indent true rest
    else (if fresh then margin indent else []) ++ c :: blockFrom indent false rest

/-- A string in its style, up to and with the end of its last line. `indent` is the margin of its further
lines. -/
def scalar (indent : Nat) (text : List Char) : List Char :=
  match styleOf text with
  | .plain => text ++ ['\n']
  | .singleQuoted => '\x27' :: (singleQuotedFrom indent false text ++ ['\n'])
  | .doubleQuoted => '"' :: (text.flatMap doubleQuotedChar ++ ['"', '\n'])
  | .block => '|' :: (blockMarks text ++ '\n' :: blockFrom indent true text)

end PegTree.Yaml
