import PegTree.Decimal.Shortest
import PegTree.Settings.Basic
import PegTree.Settings.Path
import PegTree.Text.Quoted
import PegTree.Toml.Document

/-!
# `Settings.Load` — settings from layers of files and overrides

The settings start with their defaults. Files are applied in the order in which they are given, then
overrides, which therefore win over every file. A path of an override that cannot be read is refused before
anything is applied; of the files the first that is missing or cannot be read decides; what is left is the
value of each setting.

## Contents

* `LoadError` and its wording;
* `readWhole` — a setting from a value;
* `Field`, `readField` — a setting from its section;
* `Layer`, `Layer.merge`, `load`.
-/

namespace PegTree.Settings

open Text

/-! ## Errors -/

/-- Why settings cannot be loaded. -/
inductive LoadError where
  /-- The key of an override is no path. -/
  | badPath (key : String)
  /-- A file that is required is missing. -/
  | missingFile (name : String)
  /-- A file is not TOML. -/
  | badFile (name : String)
  /-- A value does not stand for a whole number. -/
  | wrongType (found expected key : String) (origin : Option String)
  /-- A section is neither a table nor an array. -/
  | wrongSection (found form : String)
  /-- A section is an empty array. -/
  | emptySection (form : String)
  /-- A section lacks its setting. -/
  | missingSetting (name : String)
  deriving DecidableEq, Repr

/-- The error in words. -/
def LoadError.message : LoadError → String
  | .badPath key => "invalid key " ++ quoted key
  | .missingFile name => "configuration file " ++ quoted name ++ " not found"
  | .badFile name => "malformed configuration file " ++ quoted name
  | .wrongType found expected key origin =>
    "invalid type: " ++ found ++ ", expected " ++ expected ++ " for key \x60" ++ key ++ "\x60"
      ++ (match origin with
        | some name => " in " ++ name
        | none => "")
  | .wrongSection found form => "invalid type: " ++ found ++ ", expected struct " ++ form
  | .emptySection form => "invalid length 0, expected struct " ++ form ++ " with 1 element"
  | .missingSetting name => "missing field \x60" ++ name ++ "\x60"

/-! ## Settings -/

/-- The greatest number a setting can have. -/
def greatest : Nat := 18446744073709551615

/-- A whole number of at most 64 bits in decimal digits, with an optional plus sign. -/
def wholeOfText? (text : List Char) : Option Nat :=
  let digits :=
    match text with
    | '+' :: rest => rest
    | _ => text
  let n := digitsValue digits
  if !digits.isEmpty && digits.all isDigit && n ≤ greatest then some n else none

/-- The number a string stands for: a word for a truth value, or digits. -/
def wholeOfString? (text : String) : Option Nat :=
  let word := lowerCase text
  if ["true", "on", "yes"].contains word then some 1
  else if ["false", "off", "no"].contains word then some 0
  else wholeOfText? text.toList

/-- The number a value stands for: whole numbers from 0 on as they are, other numbers rounded to the
nearest in range, truth values as 1 and 0. -/
def readWhole (key : String) (value : Value) : Except LoadError Nat :=
  let refused (found : String) : Except LoadError Nat :=
    .error (.wrongType found "an integer" key value.origin)
  match value with
  | .scalar origin content =>
    match content with
    | .int n =>
      if 0 ≤ n then .ok n.toNat
      else
        .error (.wrongType ("64-bit integer \x60" ++ toString n ++ "\x60")
          "an unsigned 64 bit or less integer" key origin)
    | .float x => .ok (x.toNatSaturating greatest)
    | .bool b => .ok (if b then 1 else 0)
    | .string s =>
      match wholeOfString? s with
      | some n => .ok n
      | none => refused ("string " ++ quoted s)
    | .nil => refused "unit value"
  | .array _ _ => refused "sequence"
  | .table _ _ => refused "map"

/-- Where a setting is found: the section, its name there, and what the section is called in messages. -/
structure Field where
  place : String
  name : String
  form : String
  deriving DecidableEq, Repr

/-- A scalar in the words of a message. -/
def Scalar.describe : Scalar → String
  | .nil => "unit value"
  | .bool b => "boolean \x60" ++ (if b then "true" else "false") ++ "\x60"
  | .int n => "integer \x60" ++ toString n ++ "\x60"
  | .float x => "floating point \x60" ++ x.text ++ "\x60"
  | .string s => "string " ++ quoted s

/-- A setting from its section: the entry of a table, or the first item of an array. -/
def readField (root : Value) (field : Field) : Except LoadError Nat :=
  match root.get? field.place with
  | none => .error (.missingSetting field.place)
  | some (.scalar _ content) => .error (.wrongSection content.describe field.form)
  | some (.array _ []) => .error (.emptySection field.form)
  | some (.array _ (item :: _)) => readWhole (field.place ++ "[0]") item
  | some (.table origin entries) =>
    match (Value.table origin entries).get? field.name with
    | some value => readWhole (field.place ++ "." ++ field.name) value
    | none => .error (.missingSetting field.name)

/-- Where the greatest depth is found. -/
def depthField : Field := ⟨"engine", "max_depth", "EngineConfig"⟩

/-- Where the greatest number of expectations is found. -/
def expectedField : Field := ⟨"diagnostics", "max_expected", "DiagnosticsConfig"⟩

/-- Where the greatest label width is found. -/
def widthField : Field := ⟨"treeviz", "max_label_width", "TreevizConfig"⟩

/-- All settings from their sections. -/
def ofValue (root : Value) : Except LoadError Settings := do
  let maxDepth ← readField root depthField
  let maxExpected ← readField root expectedField
  let maxLabelWidth ← readField root widthField
  return { maxDepth, maxExpected, maxLabelWidth }

/-- Settings as a value. -/
def toValue (settings : Settings) : Value :=
  let entry (field : Field) (n : Nat) : String × Value :=
    (field.place, .table none [(field.name, .scalar none (.int n))])
  .table none [entry depthField settings.maxDepth, entry expectedField settings.maxExpected,
    entry widthField settings.maxLabelWidth]

/-! ## Layers -/

/-- A file with its text, if it is there, or a value set at a path. -/
inductive Layer where
  | file (required : Bool) (name : String) (text : Option String)
  | override (key : String) (value : Value)
  deriving Repr

/-- Overrides with one more; an override of the same path is replaced. -/
def putOverride (path : Path) (value : Value) : List (Path × Value) → List (Path × Value)
  | [] => [(path, value)]
  | (other, old) :: more =>
    if other = path then (path, value) :: more else (other, old) :: putOverride path value more

/-- The overrides among the layers, by path. -/
def overrides (earlier : List (Path × Value)) : List Layer → Except LoadError (List (Path × Value))
  | [] => .ok earlier
  | .file _ _ _ :: layers => overrides earlier layers
  | .override key value :: layers =>
    match Path.ofText? key with
    | none => .error (.badPath key)
    | some path => overrides (putOverride path value earlier) layers

/-- Sets the entries of a file. A key is a path if it can be read as one, and a name if not. -/
def setEntries (root : Value) : List (String × Value) → Value
  | [] => root
  | (key, value) :: more =>
    match Path.ofText? key with
    | some path => setEntries (value.place path root) more
    | none => setEntries (root.assign key value) more

/-- Applies the files among the layers in order. -/
def applyFiles (root : Value) : List Layer → Except LoadError Value
  | [] => .ok root
  | .override _ _ :: layers => applyFiles root layers
  | .file required name none :: layers =>
    if required then .error (.missingFile name) else applyFiles root layers
  | .file _ name (some text) :: layers =>
    match Toml.parse? (some name) text with
    | none => .error (.badFile name)
    | some entries => applyFiles (setEntries root entries) layers

/-- The settings that layers give over the defaults. -/
def load (layers : List Layer) : Except LoadError Settings := do
  let overridden ← overrides [] layers
  let root ← applyFiles (toValue {}) layers
  ofValue (overridden.foldl (fun root (path, value) => value.place path root) root)

end PegTree.Settings
