/-!
# `Text.Bytes` — character lists measured in UTF-8 bytes

Offsets into grammar text are counted in bytes of its UTF-8 form, while the text itself is handled as a
list of characters. This module holds the two measures that tie the counts together.

## Contents

* `utf8Length` — the number of bytes a list of characters takes;
* `dropBytes` — what is left after the characters that start within the first `n` bytes;
* `charsFilling?` — how many leading characters fill exactly `n` bytes, if some number does.
-/

namespace PegTree.Text

/-- The number of bytes of a text in UTF-8. -/
def utf8Length : List Char → Nat
  | [] => 0
  | c :: cs => c.utf8Size + utf8Length cs

/-- The text without the characters that start before byte `n`. -/
def dropBytes : Nat → List Char → List Char
  | 0, cs => cs
  | _ + 1, [] => []
  | n + 1, c :: cs => dropBytes (n + 1 - c.utf8Size) cs

/-- How many leading characters fill exactly `n` bytes; `none` when byte `n` lies inside a character
or past the end. -/
def charsFilling? : Nat → List Char → Option Nat
  | 0, _ => some 0
  | _ + 1, [] => none
  | n + 1, c :: cs =>
    if c.utf8Size ≤ n + 1 then (charsFilling? (n + 1 - c.utf8Size) cs).map (· + 1) else none

@[simp] theorem utf8Length_append (a b : List Char) :
    utf8Length (a ++ b) = utf8Length a + utf8Length b := by
  induction a with
  | nil => simp [utf8Length]
  | cons c a ih => simp [utf8Length, ih, Nat.add_assoc]

end PegTree.Text
