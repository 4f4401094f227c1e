import PegTree.Decimal.Binary64

/-!
# `Settings.Value` — values that settings are read from

Files and overrides give values of any shape. A value remembers the file it came from, so that an error can
name it. Values are kept in tables; names in a table are in lower case.

## Contents

* `Scalar`, `Value`, `Value.origin`;
* `Value.entries`, `Value.put` — tables;
* `Value.assign` — a value set under a name, tables merged name by name.
-/

namespace PegTree.Settings

/-- A value without parts. -/
inductive Scalar where
  | nil
  | bool (b : Bool)
  | int (n : Int)
  | float (x : Binary64)
  | string (s : String)
  deriving DecidableEq, Repr, Inhabited

/-- A value, with the file it came from if it came from one. -/
inductive Value where
  | scalar (origin : Option String) (content : Scalar)
  | array (origin : Option String) (items : List Value)
  | table (origin : Option String) (entries : List (String × Value))
  deriving Repr, Inhabited

namespace Value

/-- The file a value came from. -/
def origin : Value → Option String
  | .scalar origin _ => origin
  | .array origin _ => origin
  | .table origin _ => origin

/-- A value that stands for nothing. -/
def nil : Value :=
  .scalar none .nil

/-- A table without entries. -/
def emptyTable : Value :=
  .table none []

/-- The value as a table; what is no table becomes an empty one. -/
def asTable : Value → Value
  | .table origin entries => .table origin entries
  | _ => emptyTable

/-- The entries of a table; other values have none. -/
def entries : Value → List (String × Value)
  | .table _ entries => entries
  | _ => []

/-- The items of an array; other values have none. -/
def items : Value → List Value
  | .array _ items => items
  | _ => []

/-- The value under a name of a table. -/
def get? (value : Value) (name : String) : Option Value :=
  value.entries.lookup name

end Value

/-- Entries with a value put under a name, in its place if the name is there and last if not. -/
def putEntry {α : Type} (name : String) (value : α) : List (String × α) → List (String × α)
  | [] => [(name, value)]
  | (other, old) :: more =>
    if other = name then (name, value) :: more else (other, old) :: putEntry name value more

/-- A name in lower case; names that settings are read from are ASCII. -/
def lowerCase (name : String) : String :=
  String.ofList (name.toList.map Char.toLower)

/-- The value as a table with an entry put in. -/
def Value.put (value : Value) (name : String) (entry : Value) : Value :=
  .table value.asTable.origin (putEntry name entry value.entries)

mutual
/-- Sets a value under a name of `target`, which becomes a table. A table is merged into what is there
name by name, so an empty one changes nothing there; any other value replaces it. -/
def Value.assign (target : Value) (name : String) : Value → Value
  | .table _ entries =>
    let name := lowerCase name
    target.put name (Value.assignAll ((target.get? name).getD Value.emptyTable) entries)
  | .scalar origin content => target.put (lowerCase name) (.scalar origin content)
  | .array origin items => target.put (lowerCase name) (.array origin items)
/-- Sets entries one after the other. -/
def Value.assignAll (target : Value) : List (String × Value) → Value
  | [] => target
  | (name, value) :: more => Value.assignAll (target.assign name value) more
end

end PegTree.Settings
