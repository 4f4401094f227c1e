import PegTree.Decimal.Basic
import PegTree.Toml.Lexical

/-!
# `Toml.DateTime` — dates and times of TOML text

A value may be a day, a time of day, or both, and both together may say how far they are from universal
time. Days are checked against the calendar. Digits of a second past the ninth are dropped.

## Contents

* `Date`, `Time`, `Offset`, `DateTime` and the text each is written as;
* `readDateTime` — a date or time at the front of a text;
* `DateTime.ofText?` — a text that is a date or time as a whole.
-/

namespace PegTree.Toml

/-! ## Parts -/

/-- A day of the calendar. -/
structure Date where
  year : Nat
  month : Nat
  day : Nat
  deriving DecidableEq, Repr

/-- A time of day. -/
structure Time where
  hour : Nat
  minute : Nat
  second : Nat
  nanosecond : Nat
  deriving DecidableEq, Repr

/-- How far a time is from universal time: not at all, or by a number of minutes. -/
inductive Offset where
  | universal
  | minutes (n : Int)
  deriving DecidableEq, Repr

/-- A day, a time of day, or a time of a day. -/
inductive DateTime where
  | date (day : Date)
  | time (clock : Time)
  | moment (day : Date) (clock : Time) (offset : Option Offset)
  deriving DecidableEq, Repr

/-! ## Writing -/

/-- A number in at least `width` digits. -/
def zeroPadded (width n : Nat) : List Char :=
  let digits := Nat.toDigits 10 n
  List.replicate (width - digits.length) '0' ++ digits

/-- A list without the zeros at its end. -/
def withoutFinalZeros (digits : List Char) : List Char :=
  (digits.reverse.dropWhile (· == '0')).reverse

/-- A day as year, month and day. -/
def Date.text (date : Date) : List Char :=
  zeroPadded 4 date.year ++ '-' :: zeroPadded 2 date.month ++ '-' :: zeroPadded 2 date.day

/-- A time with the digits of its second that count. -/
def Time.text (time : Time) : List Char :=
  zeroPadded 2 time.hour ++ ':' :: zeroPadded 2 time.minute ++ ':' :: zeroPadded 2 time.second
    ++ (if time.nanosecond = 0 then [] else '.' :: withoutFinalZeros (zeroPadded 9 time.nanosecond))

/-- An offset as a letter, or as a sign, hours and minutes; an offset of no minutes has a plus sign. -/
def Offset.text : Offset → List Char
  | .universal => ['Z']
  | .minutes n =>
    (if n < 0 then '-' else '+') :: (zeroPadded 2 (n.natAbs / 60) ++ ':' :: zeroPadded 2 (n.natAbs % 60))

/-- A date or time; the letter `T` stands between day and time. -/
def DateTime.text : DateTime → List Char
  | .date day => day.text
  | .time clock => clock.text
  | .moment day clock offset => day.text ++ 'T' :: clock.text ++ (offset.map Offset.text).getD []

/-! ## Reading -/

/-- A number of exactly `width` digits. -/
def fixedWidth (width : Nat) : Reader Nat := fun text =>
  let run := text.take width
  if run.length = width && run.all isDigit then some (digitsValue run, text.drop width) else none

/-- A number of two digits that is not too great. -/
def twoDigits (greatest : Nat) : Reader Nat := fun text => do
  let (n, rest) ← fixedWidth 2 text
  if n ≤ greatest then some (n, rest) else none

/-- The number of days of a month. -/
def daysOf (year month : Nat) : Nat :=
  if month = 2 then
    if year % 4 = 0 && (year % 100 != 0 || year % 400 = 0) then 29 else 28
  else if [4, 6, 9, 11].contains month then 30
  else 31

/-- A day at the front of a text. -/
def readDate : Reader Date := fun text => do
  let (year, rest) ← fixedWidth 4 text
  let '-' :: rest := rest | none
  let (month, rest) ← twoDigits 12 rest
  let '-' :: rest := rest | none
  let (day, rest) ← twoDigits 31 rest
  if 1 ≤ month && 1 ≤ day && day ≤ daysOf year month then some (⟨year, month, day⟩, rest) else none

/-- The nanoseconds after a time's second, none if there is no point with a digit after it. -/
def readNanoseconds (text : List Char) : Nat × List Char :=
  match text with
  | '.' :: rest =>
    let (digits, after) := spanDigits rest
    if digits.isEmpty then (0, text)
    else
      let counted := digits.take 9
      (digitsValue (counted ++ List.replicate (9 - counted.length) '0'), after)
  | _ => (0, text)

/-- A time at the front of a text. The second may be the 60th, which is put in to keep clocks right. -/
def readTime : Reader Time := fun text => do
  let (hour, rest) ← twoDigits 23 text
  let ':' :: rest := rest | none
  let (minute, rest) ← twoDigits 59 rest
  let ':' :: rest := rest | none
  let (second, rest) ← twoDigits 60 rest
  let (nanosecond, rest) := readNanoseconds rest
  some (⟨hour, minute, second, nanosecond⟩, rest)

/-- The hours and minutes of an offset after its sign, as minutes. -/
def offsetMinutes : Reader Nat := fun text => do
  let (hours, rest) ← twoDigits 23 text
  let ':' :: rest := rest | none
  let (minutes, rest) ← twoDigits 59 rest
  some (hours * 60 + minutes, rest)

/-- The offset at the front of a text, if there is one. -/
def readOffset : Reader (Option Offset)
  | 'Z' :: rest | 'z' :: rest => some (some .universal, rest)
  | '+' :: rest => (offsetMinutes rest).map fun (n, rest) => (some (.minutes n), rest)
  | '-' :: rest => (offsetMinutes rest).map fun (n, rest) => (some (.minutes (-n)), rest)
  | text => some (none, text)

/-- The time of a day after that day, with its offset. A letter or a blank stands before it. -/
def readTimeOfDay : Reader (Time × Option Offset)
  | 'T' :: rest | 't' :: rest | ' ' :: rest => do
    let (time, rest) ← readTime rest
    let (offset, rest) ← readOffset rest
    some ((time, offset), rest)
  | _ => none

/-- A date or time at the front of a text; a day without a time after it stands alone. -/
def readDateTime : Reader DateTime := fun text =>
  match readDate text with
  | some (date, rest) =>
    match readTimeOfDay rest with
    | some ((time, offset), rest) => some (.moment date time offset, rest)
    | none => some (.date date, rest)
  | none => (readTime text).map fun (time, rest) => (.time time, rest)

/-- The date or time that a text spells from its first to its last character. -/
def DateTime.ofText? (text : String) : Option DateTime :=
  match readDateTime text.toList with
  | some (value, []) => some value
  | _ => none

end PegTree.Toml
