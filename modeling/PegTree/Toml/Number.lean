import PegTree.Decimal.Binary64
import PegTree.Settings.Value
import PegTree.Toml.Lexical

/-!
# `Toml.Number` — numbers of TOML text

Whole numbers are decimal, or hexadecimal, octal or binary after a mark, and must fit in 64 bits with a
sign. Underscores may stand between two digits.
-/

namespace PegTree.Toml

open Text Settings

/-- Digits, with single underscores between them left out. -/
def moreDigits (test : Char → Bool) : Reader (List Char)
  | [] => some ([], [])
  | c :: rest =>
    if test c then prepend c (moreDigits test rest)
    else if c = '_' then if rest.head?.any test then moreDigits test rest else none
    else some ([], c :: rest)

/-- Digits, of which there must be one. -/
def digits (test : Char → Bool) : Reader (List Char) := fun text =>
  if text.head?.any test then moreDigits test text else none

/-- Whether a character is a digit of a base. -/
def isDigitOf (base : Nat) (c : Char) : Bool :=
  (hexDigit? c).any (· < base)

/-- A whole number in a base, after its mark. -/
def based (base : Nat) : Reader Int := fun text => do
  let (run, rest) ← digits (isDigitOf base) text
  let n : Int := run.foldl (fun n c => n * base + (hexDigit? c).getD 0) (0 : Nat)
  if fitsWord n then some (n, rest) else none

/-- The digits before a point: a zero alone, or digits that begin with another one. -/
def wholeDigits : Reader (List Char)
  | '0' :: rest => some (['0'], rest)
  | text => digits isDigit text

/-- The fraction after whole digits, with its point, if there is one. -/
def fraction : Reader (List Char)
  | '.' :: rest => prepend '.' (digits isDigit rest)
  | text => some ([], text)

/-- The exponent, with its letter, if there is one. -/
def exponent (text : List Char) : Option (List Char × List Char) :=
  match text with
  | 'e' :: rest | 'E' :: rest =>
    match rest with
    | '-' :: rest => prepend 'e' (prepend '-' (digits isDigit rest))
    | '+' :: rest => prepend 'e' (digits isDigit rest)
    | _ => prepend 'e' (digits isDigit rest)
  | _ => some ([], text)

/-- A number with its sign already read. A number with a point or an exponent must not be too large to be
positive. -/
def unsigned (negative : Bool) : Reader Scalar
  | 'i' :: 'n' :: 'f' :: rest => some (.float (.infinite negative), rest)
  | 'n' :: 'a' :: 'n' :: rest => some (.float .notANumber, rest)
  | text => do
    let (whole, rest) ← wholeDigits text
    let (fraction, rest) ← fraction rest
    let (exponent, rest) ← exponent rest
    if fraction.isEmpty && exponent.isEmpty then
      let n : Int := if negative then -(digitsValue whole : Int) else digitsValue whole
      if fitsWord n then some (.int n, rest) else none
    else
      let d ← Decimal.ofText? (whole ++ fraction ++ exponent)
      let x := Decimal.toBinary64 { d with negative }
      if x = .infinite false then none else some (.float x, rest)

/-- A number at the front of a text. -/
def readNumber : Reader Scalar
  | '0' :: 'x' :: rest => (based 16 rest).map fun (n, rest) => (.int n, rest)
  | '0' :: 'o' :: rest => (based 8 rest).map fun (n, rest) => (.int n, rest)
  | '0' :: 'b' :: rest => (based 2 rest).map fun (n, rest) => (.int n, rest)
  | '-' :: rest => unsigned true rest
  | '+' :: rest => unsigned false rest
  | text => unsigned false text

end PegTree.Toml
