import PegTree.Decimal.Binary64
import PegTree.Json.Fault

/-!
# `Json.Number` — JSON numbers

Only whole numbers from 0 to `2 ^ 64 - 1`, written without a sign, a point or an exponent, have a value
here. Other numbers are recognised, and refused as text when they are too large for a binary64 number.

## Contents

* `Number` — a whole number, or some other number;
* `Parts`, `readParts` — the parts of a number as they are written;
* `Parts.outOfRange` — whether the number is too large;
* `readNumber`, `skipNumber`.
-/

namespace PegTree.Json

/-- The greatest whole number that has a value. -/
def greatestWhole : Nat := 18446744073709551615

/-- A number as far as its value matters. -/
inductive Number where
  | whole (n : Nat)
  | other
  deriving DecidableEq, Repr

/-- The parts of a number after its sign: digits, digits after the point, and the exponent with its sign. -/
structure Parts where
  whole : List Char
  fraction : List Char := []
  exponent : Option (Bool × List Char) := none
  deriving DecidableEq, Repr

/-- The digits at the front of a text; there must be one, and `atEnd` says what its absence at the end of
the text means. -/
def someDigits (atEnd : Fault) : Reader (List Char) := fun text =>
  match spanDigits text with
  | ([], []) => .error atEnd
  | ([], _ :: _) => .error .malformed
  | (digits, rest) => .ok (digits, rest)

/-- The digits before the point; only a zero that stands alone may come first. -/
def wholeDigits (atEnd : Fault) : Reader (List Char) := fun text =>
  match someDigits atEnd text with
  | .error fault => .error fault
  | .ok (digits, rest) =>
    match digits with
    | '0' :: _ :: _ => .error .malformed
    | _ => .ok (digits, rest)

/-- The exponent after its letter. -/
def exponentPart (atEnd : Fault) : Reader (Bool × List Char) := fun text =>
  let (negative, text) := spanSign text
  (someDigits atEnd text).map fun (digits, rest) => ((negative, digits), rest)

/-- The exponent of a number, if one follows. -/
def optionalExponent (atEnd : Fault) (parts : Parts) : Reader Parts := fun text =>
  match text with
  | 'e' :: rest | 'E' :: rest =>
    (exponentPart atEnd rest).map fun (exponent, rest) => ({ parts with exponent := some exponent }, rest)
  | _ => .ok (parts, text)

/-- The parts of a number, after its sign. -/
def readParts (atEnd : Fault) : Reader Parts := fun text =>
  match wholeDigits atEnd text with
  | .error fault => .error fault
  | .ok (whole, rest) =>
    match rest with
    | '.' :: rest =>
      match someDigits atEnd rest with
      | .error fault => .error fault
      | .ok (fraction, rest) => optionalExponent atEnd { whole, fraction } rest
    | _ => optionalExponent atEnd { whole } rest

/-! ## Range -/

/-- A coefficient with at most 64 bits and a power of ten. -/
structure Scaled where
  coefficient : Nat := 0
  power : Int := 0
  deriving DecidableEq, Repr

/-- Adds digits before the point. Once one does not fit, the rest only raise the power. -/
def Scaled.addWhole (full : Bool) (scaled : Scaled) : List Char → Scaled
  | [] => scaled
  | c :: digits =>
    let next := scaled.coefficient * 10 + digitValue c
    if full || greatestWhole < next then
      addWhole true { scaled with power := scaled.power + 1 } digits
    else addWhole false { scaled with coefficient := next } digits

/-- Adds digits after the point up to the first that does not fit. -/
def Scaled.addFraction (scaled : Scaled) : List Char → Scaled
  | [] => scaled
  | c :: digits =>
    let next := scaled.coefficient * 10 + digitValue c
    if greatestWhole < next then scaled else addFraction ⟨next, scaled.power - 1⟩ digits

/-- Whether coefficient and power of ten, each rounded to a binary64 number, have too large a product. -/
def Scaled.outOfRange (scaled : Scaled) : Bool :=
  if scaled.coefficient = 0 || scaled.power < 0 then false
  else if 308 < scaled.power then true
  else
    twoPow 1024 - twoPow 970
      ≤ nearestWhole scaled.coefficient * nearestWhole (tenPow scaled.power.toNat)

/-- Whether a number is too large. Exponents of more than 31 bits are not added up. -/
def Parts.outOfRange (parts : Parts) : Bool :=
  let scaled := (Scaled.addWhole false {} parts.whole).addFraction parts.fraction
  match parts.exponent with
  | none => scaled.outOfRange
  | some (negative, digits) =>
    let exponent := digitsValue digits
    if 2147483647 < exponent then scaled.coefficient ≠ 0 && !negative
    else
      let power := if negative then scaled.power - exponent else scaled.power + exponent
      Scaled.outOfRange { scaled with power }

/-! ## Numbers -/

/-- The value of a number: whole only when it has neither sign, point nor exponent and is not too large. -/
def Parts.number (negative : Bool) (parts : Parts) : Number :=
  let n := digitsValue parts.whole
  if !negative && parts.fraction.isEmpty && parts.exponent.isNone && n ≤ greatestWhole then .whole n
  else .other

/-- Reads a number whose first character is a sign or a digit. -/
def readNumber : Reader Number := fun text =>
  let (negative, text) :=
    match text with
    | '-' :: rest => (true, rest)
    | _ => (false, text)
  match readParts .truncated text with
  | .error fault => .error fault
  | .ok (parts, rest) =>
    if parts.outOfRange then .error .malformed else .ok (parts.number negative, rest)

/-- Passes over a number whose first character is a sign or a digit; it may be of any size. -/
def skipNumber (text : List Char) : Except Fault (List Char) :=
  let text :=
    match text with
    | '-' :: rest => rest
    | _ => text
  (readParts .malformed text).map (·.2)

end PegTree.Json
