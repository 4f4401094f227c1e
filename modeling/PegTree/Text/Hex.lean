/-!
# `Text.Hex` — code points written in hexadecimal

Every text format of the library that escapes a character writes its code point in hexadecimal: with
small digits and no padding, or padded to a fixed width.
-/

namespace PegTree.Text

/-- The value of a hexadecimal digit of either case. -/
def hexDigit? (c : Char) : Option Nat :=
  if '0' ≤ c ∧ c ≤ '9' then some (c.toNat - '0'.toNat)
  else if 'a' ≤ c ∧ c ≤ 'f' then some (c.toNat - 'a'.toNat + 10)
  else if 'A' ≤ c ∧ c ≤ 'F' then some (c.toNat - 'A'.toNat + 10)
  else none

/-- A number in hexadecimal with small digits and no padding. -/
def hex (n : Nat) : List Char :=
  Nat.toDigits 16 n

/-- A number in hexadecimal with small digits, padded with zeros to at least `width` digits. -/
def hexPadded (width n : Nat) : List Char :=
  let digits := hex n
  List.replicate (width - digits.length) '0' ++ digits

/-- A number in hexadecimal with capital digits, padded with zeros to at least `width` digits. -/
def hexCapital (width n : Nat) : List Char :=
  (hexPadded width n).map Char.toUpper

end PegTree.Text
