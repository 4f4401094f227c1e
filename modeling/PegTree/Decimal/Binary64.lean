import PegTree.Decimal.Basic

/-!
# `Decimal.Binary64` — binary floating point in exact arithmetic

A finite binary64 number is a sign, a mantissa below `2 ^ 53` and a power of two not below `2 ^ -1074`.
Decimal numbers are rounded to the nearest one, ties to an even mantissa, with whole numbers only.

## Contents

* `roundHalfEven` — a quotient to the nearest whole number;
* `nearestWhole` — a whole number to 53 significant bits;
* `Binary64`, `Decimal.toBinary64`;
* `Binary64.toNatSaturating` — the nearest whole number in a range.
-/

namespace PegTree

/-- The whole number nearest to `num / den`, the even one of two. -/
def roundHalfEven (num den : Nat) : Nat :=
  let q := num / den
  let twice := 2 * (num % den)
  if den < twice || (twice == den && q % 2 == 1) then q + 1 else q

/-- The nearest whole number with at most 53 significant bits, the even one of two. -/
def nearestWhole (n : Nat) : Nat :=
  let unit := twoPow (n.log2 + 1 - 53)
  roundHalfEven n unit * unit

/-- A binary64 number. A finite one has the value `mantissa * 2 ^ exponent`, with a sign. -/
inductive Binary64 where
  | finite (negative : Bool) (mantissa : Nat) (exponent : Int)
  | infinite (negative : Bool)
  | notANumber
  deriving DecidableEq, Repr, Inhabited

namespace Binary64

/-- `num / den` divided by a power of two, as a quotient of whole numbers. -/
def scale (num den : Nat) (exponent : Int) : Nat × Nat :=
  if 0 ≤ exponent then (num, den * twoPow exponent.toNat) else (num * twoPow (-exponent).toNat, den)

/-- The binary64 number nearest to the positive quotient `num / den`. -/
def ofQuotient (negative : Bool) (num den : Nat) : Binary64 :=
  let guess : Int := (num.log2 : Int) - den.log2 - 53
  let (n, d) := scale num den guess
  let exponent := max (if twoPow 53 * d ≤ n then guess + 1 else guess) (-1074)
  let (n, d) := scale num den exponent
  let mantissa := roundHalfEven n d
  let (mantissa, exponent) := if mantissa = twoPow 53 then (twoPow 52, exponent + 1) else (mantissa, exponent)
  if 971 < exponent then .infinite negative else .finite negative mantissa exponent

end Binary64

/-- The binary64 number nearest to a decimal number. Numbers far beyond the range are not computed. -/
def Decimal.toBinary64 (d : Decimal) : Binary64 :=
  let magnitude : Int := (Nat.toDigits 10 d.coefficient).length + d.exponent
  if d.coefficient = 0 || magnitude < -330 then .finite d.negative 0 0
  else if 330 < magnitude then .infinite d.negative
  else if 0 ≤ d.exponent then .ofQuotient d.negative (d.coefficient * tenPow d.exponent.toNat) 1
  else .ofQuotient d.negative d.coefficient (tenPow (-d.exponent).toNat)

/-- The nearest whole number from 0 to `greatest`, halves away from zero; a value that is not a number
counts as 0. -/
def Binary64.toNatSaturating (greatest : Nat) : Binary64 → Nat
  | .finite true _ _ => 0
  | .finite false mantissa exponent =>
    if 0 ≤ exponent then min greatest (mantissa * twoPow exponent.toNat)
    else
      let den := twoPow (-exponent).toNat
      min greatest ((2 * mantissa + den) / (2 * den))
  | .infinite true => 0
  | .infinite false => greatest
  | .notANumber => 0

end PegTree
