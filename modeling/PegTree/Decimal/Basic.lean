/-!
# `Decimal.Basic` — decimal numbers as they are written

A decimal number is a sign, a coefficient and a power of ten, read without rounding.
-/

namespace PegTree

/-- The number `coefficient * 10 ^ exponent`, with a sign. -/
structure Decimal where
  negative : Bool
  coefficient : Nat
  exponent : Int
  deriving DecidableEq, Repr, Inhabited

/-- Whether a whole number fits in 64 bits with a sign. -/
def fitsWord (n : Int) : Bool :=
  -9223372036854775808 ≤ n && n ≤ 9223372036854775807

/-- A power of two. -/
def twoPow (n : Nat) : Nat :=
  Nat.pow 2 n

/-- A power of ten. -/
def tenPow (n : Nat) : Nat :=
  Nat.pow 10 n

/-- Whether a character is a decimal digit. -/
def isDigit (c : Char) : Bool :=
  '0' ≤ c && c ≤ '9'

/-- The value of a decimal digit. -/
def digitValue (c : Char) : Nat :=
  c.toNat - '0'.toNat

/-- The number that a list of decimal digits spells. -/
def digitsValue (digits : List Char) : Nat :=
  digits.foldl (fun n c => n * 10 + digitValue c) 0

/-- The digits at the start of a text, and the rest. -/
def spanDigits (text : List Char) : List Char × List Char :=
  (text.takeWhile isDigit, text.dropWhile isDigit)

/-- The sign at the start of a text (`true` for a minus sign, none counts as plus), and the rest. -/
def spanSign : List Char → Bool × List Char
  | '-' :: rest => (true, rest)
  | '+' :: rest => (false, rest)
  | text => (false, text)

namespace Decimal

/-- The exponent that ends a number: nothing, or a letter `e` and a whole number. -/
def exponent? : List Char → Option Int
  | [] => some 0
  | mark :: rest =>
    if mark = 'e' ∨ mark = 'E' then
      let (negative, rest) := spanSign rest
      if !rest.isEmpty && rest.all isDigit then
        some (if negative then -(digitsValue rest : Int) else digitsValue rest)
      else none
    else none

/-- Reads a number: an optional sign, digits with at most one point among or beside them, and an optional
exponent. -/
def ofText? (text : List Char) : Option Decimal :=
  let (negative, text) := spanSign text
  let (whole, text) := spanDigits text
  let (fraction, text) :=
    match text with
    | '.' :: rest => spanDigits rest
    | _ => ([], text)
  if whole.isEmpty && fraction.isEmpty then none
  else
    (exponent? text).map fun exponent =>
      ⟨negative, digitsValue (whole ++ fraction), exponent - fraction.length⟩

end Decimal

end PegTree
