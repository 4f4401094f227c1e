import PegTree.Text.Combining
import PegTree.Text.Hex
import PegTree.Text.Printable

/-!
# `Text.Quoted` — text in double quotes, on one line and visible

Messages and drawings show a piece of text in double quotes. Quotes, backslashes and the common controls
have short escapes; a mark that would attach to the character before it, and every character without a
visible form, is written as its code point.
-/

namespace PegTree.Text

/-- A character written as its code point: `\u` and the hexadecimal digits in braces. -/
def codePointEscape (c : Char) : List Char :=
  '\\' :: 'u' :: '\x7b' :: (hex c.toNat ++ ['\x7d'])

/-- How one character is written between double quotes. -/
def quotedChar (c : Char) : List Char :=
  if c = '\x00' then ['\\', '0']
  else if c = '\t' then ['\\', 't']
  else if c = '\r' then ['\\', 'r']
  else if c = '\n' then ['\\', 'n']
  else if c = '"' then ['\\', '"']
  else if c = '\\' then ['\\', '\\']
  else if isCombining c then codePointEscape c
  else if isPrintable c then [c]
  else codePointEscape c

/-- A text in double quotes. -/
def quotedChars (text : List Char) : List Char :=
  '"' :: (text.flatMap quotedChar ++ ['"'])

/-- A string in double quotes. -/
def quoted (text : String) : String :=
  String.ofList (quotedChars text.toList)

end PegTree.Text
