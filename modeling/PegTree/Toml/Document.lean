import PegTree.Toml.DateTime
import PegTree.Toml.Number

/-!
# `Toml.Document` — TOML text as a table

A text is read line by line into a tree of tables. A table may be opened by a header once; tables that are
only passed through on the way to another one may be opened later, and tables made by dotted keys may only
be filled by dotted keys. A name has one value. A date or time counts as the text it is written as; a table
whose first name is the reserved one stands for the date or time that is spelled there.

## Contents

* `Item`, `Item.descend`, `Item.insert`, `Item.openTable`, `Item.openListed` — the tree;
* `Item.toValue?` — the value of a tree;
* `readItem` — strings, numbers, dates, truth values, arrays and inline tables;
* `parse?` — the entries of a text.
-/

namespace PegTree.Toml

open Text Settings

/-! ## The tree -/

/-- A part of the tree of a text being read. -/
inductive Item where
  /-- A string, a number or a truth value. -/
  | scalar (content : Scalar)
  /-- A date or time. -/
  | dateTime (value : DateTime)
  /-- An array that is written out in brackets. -/
  | array (items : List Item)
  /-- A table that is written out in braces; nothing can be added to it. -/
  | inlined (entries : List (String × Item))
  /-- A table: made by a dotted key or not, passed through only or not, and its entries. -/
  | table (dotted implicit : Bool) (entries : List (String × Item))
  /-- The tables of a list, in order. -/
  | listed (tables : List Item)

namespace Item

/-- The entries of a table that can be added to; other items have none. -/
def entries : Item → List (String × Item)
  | .table _ _ entries => entries
  | _ => []

/-- A table with an entry put in; other items are left as they are. -/
def put (item : Item) (name : String) (entry : Item) : Item :=
  match item with
  | .table dotted implicit entries => .table dotted implicit (putEntry name entry entries)
  | _ => item

/-- A table with an entry put last, wherever it was before; other items are left as they are. -/
def putLast (item : Item) (name : String) (entry : Item) : Item :=
  match item with
  | .table dotted implicit entries =>
    .table dotted implicit (entries.filter (·.1 != name) ++ [(name, entry)])
  | _ => item

/-- The item under a name of a table. -/
def get? (item : Item) (name : String) : Option Item :=
  item.entries.lookup name

/-- Changes the table that is reached through names, of which `dotted` says whether they come from a dotted
key. Tables that are not there are made; a dotted key does not lead through a table that a header opened,
and nothing leads through a value. -/
def descend (dotted : Bool) (change : Item → Option Item) : List String → Item → Option Item
  | [], item => change item
  | name :: names, item =>
    match item.get? name with
    | none => (descend dotted change names (.table dotted true [])).map (item.put name ·)
    | some (.table d implicit entries) =>
      if dotted && !implicit then none
      else (descend dotted change names (.table d implicit entries)).map (item.put name ·)
    | some (.listed tables) =>
      match tables.getLast? with
      | none => none
      | some last =>
        (descend dotted change names last).map fun last =>
          item.put name (.listed (tables.dropLast ++ [last]))
    | some _ => none

/-- Puts a value under a key of a table. -/
def insert (item : Item) (names : List String) (name : String) (value : Item) : Option Item :=
  item.descend true (fun table =>
    match table with
    | .table dotted _ entries =>
      if dotted == names.isEmpty || (entries.lookup name).isSome then none
      else some (table.put name value)
    | _ => none) names

/-- Opens a table by a header; one that was passed through before moves to the end. -/
def openTable (item : Item) (names : List String) (name : String) : Option Item :=
  item.descend false (fun table =>
    match table.get? name with
    | none => some (table.put name (.table false false []))
    | some (.table false true entries) => some (table.putLast name (.table false false entries))
    | some _ => none) names

/-- Adds a table to a list by a header. -/
def openListed (item : Item) (names : List String) (name : String) : Option Item :=
  item.descend false (fun table =>
    match table.get? name with
    | none => some (table.put name (.listed [.table false false []]))
    | some (.listed tables) => some (table.put name (.listed (tables ++ [.table false false []])))
    | some _ => none) names

/-- A date or time as a value. -/
def ofDateTime (origin : Option String) (value : DateTime) : Value :=
  .scalar origin (.string (String.ofList value.text))

/-- The name that is reserved for tables that stand for a date or time. -/
def reservedName : String := "$__toml_private_datetime"

/-- What stands under the reserved name, if that is the first name of a table. -/
def reserved? : List (String × Item) → Option Item
  | [] => none
  | (name, item) :: _ => if name = reservedName then some item else none

/-- The date or time that the string under the reserved name spells, as a value. -/
def spelled? (origin : Option String) : Item → Option Value
  | .scalar (.string text) => (DateTime.ofText? text).map (ofDateTime origin)
  | _ => none

mutual
/-- The value of an item. -/
def toValue? (origin : Option String) : Item → Option Value
  | .scalar content => some (.scalar origin content)
  | .dateTime value => some (ofDateTime origin value)
  | .array items => (toValues? origin items).map (.array origin ·)
  | .listed tables => (toValues? origin tables).map (.array origin ·)
  | .inlined entries =>
    match reserved? entries with
    | some item => spelled? origin item
    | none => (toEntries? origin entries).map (.table origin ·)
  | .table _ _ entries =>
    match reserved? entries with
    | some item => spelled? origin item
    | none => (toEntries? origin entries).map (.table origin ·)
/-- The values of entries. -/
def toEntries? (origin : Option String) : List (String × Item) → Option (List (String × Value))
  | [] => some []
  | (name, item) :: more => do
    let value ← toValue? origin item
    let more ← toEntries? origin more
    some ((name, value) :: more)
/-- The values of items. -/
def toValues? (origin : Option String) : List Item → Option (List Value)
  | [] => some []
  | item :: more => do
    let value ← toValue? origin item
    let more ← toValues? origin more
    some (value :: more)
end

end Item

/-! ## Values -/

/-- A date, time or number at the front of a text. -/
def readPlain (text : List Char) : Option (Item × List Char) :=
  match readDateTime text with
  | some (value, rest) => some (.dateTime value, rest)
  | none => (readNumber text).map fun (number, rest) => (.scalar number, rest)

mutual
/-- A value at the front of a text; brackets and braces may be open in `room` levels more. -/
def readItem : (fuel room : Nat) → Reader Item
  | 0, _, _ => none
  | _ + 1, _, [] => none
  | fuel + 1, room, c :: rest =>
    if c = '"' || c = '\x27' then
      (readString (c :: rest)).map fun (s, rest) => (.scalar (.string (String.ofList s)), rest)
    else if c = '[' then
      if room = 0 then none
      else
        (readItems fuel (room - 1) (skipGaps false rest)).map fun (items, rest) => (.array items, rest)
    else if c = '\x7b' then
      if room = 0 then none
      else
        match skipBlanks rest with
        | '\x7d' :: rest => some (.inlined [], rest)
        | rest =>
          (readPairs fuel (room - 1) (.table false false []) rest).map fun (table, rest) =>
            (.inlined table.entries, rest)
    else
      match c :: rest with
      | 't' :: 'r' :: 'u' :: 'e' :: rest => some (.scalar (.bool true), rest)
      | 'f' :: 'a' :: 'l' :: 's' :: 'e' :: rest => some (.scalar (.bool false), rest)
      | text => readPlain text
/-- The items of an array after its opening bracket or a comma. -/
def readItems : (fuel room : Nat) → Reader (List Item)
  | 0, _, _ => none
  | _ + 1, _, ']' :: rest => some ([], rest)
  | fuel + 1, room, text =>
    match readItem fuel room text with
    | none => none
    | some (item, rest) =>
      match skipGaps false rest with
      | ']' :: rest => some ([item], rest)
      | ',' :: rest =>
        (readItems fuel room (skipGaps false rest)).map fun (more, rest) => (item :: more, rest)
      | _ => none
/-- The pairs of an inline table after its opening brace or a comma, added to `table`. -/
def readPairs : (fuel room : Nat) → (table : Item) → Reader Item
  | 0, _, _, _ => none
  | fuel + 1, room, table, text =>
    match readKey text with
    | some ((names, name), '=' :: rest) =>
      match readItem fuel room (skipBlanks rest) with
      | none => none
      | some (item, rest) =>
        match table.insert names name item, skipBlanks rest with
        | some table, '\x7d' :: rest => some (table, rest)
        | some table, ',' :: rest => readPairs fuel room table rest
        | _, _ => none
    | _ => none
end

/-- A value at the front of a text that nothing is open around. -/
def readWholeItem : Reader Item := fun text =>
  readItem (2 * text.length + 2) (levelLimit - 1) text

/-! ## Lines -/

/-- The key of a header, after its opening brackets and up to the end of its line. -/
def headerKey (brackets : List Char) (text : List Char) : Option ((List String × String) × List Char) := do
  let (key, rest) ← readKey text
  if rest.take brackets.length = brackets then
    let rest ← lineEnd (rest.drop brackets.length)
    some (key, rest)
  else none

/-- Reads lines into a tree; `header` holds the names of the table that was opened last. -/
def linesFrom : (fuel : Nat) → (header : List String) → Item → List Char → Option Item
  | 0, _, _, _ => none
  | fuel + 1, header, root, text =>
    match skipBlanks text with
    | [] => some root
    | '[' :: '[' :: rest => do
      let ((names, name), rest) ← headerKey [']', ']'] rest
      let root ← root.openListed names name
      linesFrom fuel (names ++ [name]) root rest
    | '[' :: rest => do
      let ((names, name), rest) ← headerKey [']'] rest
      let root ← root.openTable names name
      linesFrom fuel (names ++ [name]) root rest
    | text =>
      match lineEnd text with
      | some rest => linesFrom fuel header root rest
      | none =>
        match readKey text with
        | some ((names, name), '=' :: rest) => do
          let (value, rest) ← readWholeItem (skipBlanks rest)
          let root ← root.descend false (·.insert names name value) header
          let rest ← lineEnd rest
          linesFrom fuel header root rest
        | _ => none

/-- The entries that a text spells, as values that came from `origin`. A byte order mark may come first. A
text that stands for a date or time has no entries and is refused. -/
def parse? (origin : Option String) (text : String) : Option (List (String × Value)) :=
  let text :=
    match text.toList with
    | '\uFEFF' :: rest => rest
    | text => text
  match linesFrom (text.length + 1) [] (.table false false []) text with
  | some root => if (Item.reserved? root.entries).isSome then none else Item.toEntries? origin root.entries
  | none => none

end PegTree.Toml
