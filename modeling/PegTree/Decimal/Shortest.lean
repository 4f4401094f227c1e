import PegTree.Decimal.Binary64

/-!
# `Decimal.Shortest` — the fewest digits that read back

A finite binary64 number is written with the fewest digits that are nearer to it than to any other
binary64 number, and of those with the nearest ones; never with an exponent.
-/

namespace PegTree.Binary64

/-- Compares `digits * 10 ^ place` with `quarters * 2 ^ (exponent - 2)`. -/
def compareAt (place : Int) (digits : Nat) (exponent : Int) (quarters : Nat) : Ordering :=
  let left := digits * tenPow place.toNat * twoPow (2 - exponent).toNat
  let right := quarters * twoPow (exponent - 2).toNat * tenPow (-place).toNat
  compare left right

/-- Whether `digits * 10 ^ place` rounds to the number with this mantissa and exponent. -/
def roundsTo (mantissa : Nat) (exponent : Int) (place : Int) (digits : Nat) : Bool :=
  let low := 4 * mantissa - (if mantissa = twoPow 52 ∧ -1074 < exponent then 1 else 2)
  let high := 4 * mantissa + 2
  let even := mantissa % 2 == 0
  let above := compareAt place digits exponent low
  let below := compareAt place digits exponent high
  (above == .gt || (even && above == .eq)) && (below == .lt || (even && below == .eq))

/-- The whole number of units `10 ^ place` in the number, rounded down. -/
def unitsBelow (mantissa : Nat) (exponent : Int) (place : Int) : Nat :=
  (mantissa * twoPow exponent.toNat * tenPow (-place).toNat)
    / (twoPow (-exponent).toNat * tenPow place.toNat)

/-- Looks from `place` downwards, `fuel` places at most, for the first place with digits that read back. -/
def shortestFrom (mantissa : Nat) (exponent : Int) : (fuel : Nat) → (place : Int) → Nat × Int
  | 0, place => (unitsBelow mantissa exponent place, place)
  | fuel + 1, place =>
    let units := unitsBelow mantissa exponent place
    let lower := units ≠ 0 && roundsTo mantissa exponent place units
    let upper := roundsTo mantissa exponent place (units + 1)
    if lower && upper then
      -- The middle between the two candidates, in halves of a unit; the greater one wins a tie.
      let middle := compareAt place (2 * units + 1) exponent (8 * mantissa)
      (if middle == .gt then units else units + 1, place)
    else if lower then (units, place)
    else if upper then (units + 1, place)
    else shortestFrom mantissa exponent fuel (place - 1)

/-- Digits with the point put at its place. -/
def positional (digits : Nat) (place : Int) : String :=
  let text := Nat.toDigits 10 digits
  if 0 ≤ place then String.ofList (text ++ List.replicate place.toNat '0')
  else
    let below := (-place).toNat
    let text := List.replicate (below + 1 - text.length) '0' ++ text
    String.ofList (text.take (text.length - below) ++ '.' :: text.drop (text.length - below))

/-- The number with the fewest digits that read back. A point and a zero follow a whole number. -/
def text : Binary64 → String
  | .notANumber => "NaN"
  | .infinite negative => if negative then "-inf" else "inf"
  | .finite negative mantissa exponent =>
    let (digits, place) := if mantissa = 0 then (0, 0) else shortestFrom mantissa exponent 640 310
    (if negative then "-" else "") ++ positional digits place ++ (if 0 ≤ place then ".0" else "")

end PegTree.Binary64
