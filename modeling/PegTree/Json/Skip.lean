import PegTree.Json.Number
import PegTree.Json.Quoted

/-!
# `Json.Skip` — passing over a value

A value that nobody asked for is only checked for its form. The brackets that are open are kept in a list,
so nesting is not limited.
-/

namespace PegTree.Json

/-- An open bracket. -/
inductive Bracket where
  | array
  | object
  deriving DecidableEq, Repr

/-- The character that closes a bracket. -/
def Bracket.closing : Bracket → Char
  | .array => ']'
  | .object => '\x7d'

/-- What is expected next. -/
inductive Expect where
  /-- A value. -/
  | value
  /-- A first item, or the end of the innermost bracket. -/
  | itemOrEnd
  /-- A further item of the innermost bracket. -/
  | item
  /-- A comma, or the end of the innermost bracket. -/
  | commaOrEnd
  deriving DecidableEq, Repr

/-- Passes over a value that is no bracket. -/
def skipScalar (c : Char) (rest : List Char) : Except Fault (List Char) :=
  if c = 'n' then word ['u', 'l', 'l'] rest
  else if c = 't' then word ['r', 'u', 'e'] rest
  else if c = 'f' then word ['a', 'l', 's', 'e'] rest
  else if c = '"' then skipString rest
  else if c = '-' || isDigit c then skipNumber (c :: rest)
  else .error .malformed

/-- Passes over the name of an item and the colon after it. -/
def skipName (text : List Char) : Except Fault (List Char) :=
  match skipBlanks text with
  | [] => .error .truncated
  | '"' :: rest =>
    match skipString rest with
    | .error fault => .error fault
    | .ok rest =>
      match skipBlanks rest with
      | [] => .error .truncated
      | ':' :: rest => .ok rest
      | _ => .error .malformed
  | _ => .error .malformed

/-- Passes over what is left of a value; `brackets` holds the open ones, innermost first. -/
def skipFrom : (fuel : Nat) → Expect → (brackets : List Bracket) → List Char → Except Fault (List Char)
  | 0, _, _, _ => .error .malformed
  | fuel + 1, .value, brackets, text =>
    match skipBlanks text with
    | [] => .error .truncated
    | '[' :: rest => skipFrom fuel .itemOrEnd (.array :: brackets) rest
    | '\x7b' :: rest => skipFrom fuel .itemOrEnd (.object :: brackets) rest
    | c :: rest =>
      match skipScalar c rest with
      | .error fault => .error fault
      | .ok rest => skipFrom fuel .commaOrEnd brackets rest
  | fuel + 1, .item, brackets, text =>
    match brackets.head? with
    | some .object =>
      match skipName text with
      | .error fault => .error fault
      | .ok rest => skipFrom fuel .value brackets rest
    | _ => skipFrom fuel .value brackets text
  | fuel + 1, .itemOrEnd, brackets, text =>
    match brackets, skipBlanks text with
    | [], _ => .ok text
    | _ :: _, [] => .error .truncated
    | bracket :: outer, c :: rest =>
      if c = bracket.closing then skipFrom fuel .commaOrEnd outer rest
      else skipFrom fuel .item brackets text
  | fuel + 1, .commaOrEnd, brackets, text =>
    match brackets, skipBlanks text with
    | [], _ => .ok text
    | _ :: _, [] => .error .truncated
    | bracket :: outer, c :: rest =>
      if c = bracket.closing then skipFrom fuel .commaOrEnd outer rest
      else if c = ',' then skipFrom fuel .item brackets rest
      else .error .malformed

/-- Passes over a value. No more than three steps are made for a character, and one at the end. -/
def skipValue (text : List Char) : Except Fault (List Char) :=
  skipFrom (3 * text.length + 3) .value [] text

/-- What is wrong with a value that is not of the form asked for: its text may be wrong before its form
is. -/
def refuse (text : List Char) : Fault :=
  match skipBlanks text with
  | [] => .truncated
  | c :: rest =>
    let scanned : Except Fault Unit :=
      if c = 'n' then (word ['u', 'l', 'l'] rest).map fun _ => ()
      else if c = 't' then (word ['r', 'u', 'e'] rest).map fun _ => ()
      else if c = 'f' then (word ['a', 'l', 's', 'e'] rest).map fun _ => ()
      else if c = '"' then (readString rest).map fun _ => ()
      else if c = '-' || isDigit c then (readNumber (c :: rest)).map fun _ => ()
      else if c = '[' || c = '\x7b' then .ok ()
      else .error .malformed
    match scanned with
    | .error fault => fault
    | .ok _ => .unfit

end PegTree.Json
