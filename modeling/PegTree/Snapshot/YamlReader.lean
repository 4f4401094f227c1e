import PegTree.Snapshot.YamlWriter
import PegTree.Yaml.Reader

/-!
# `Snapshot.YamlReader` — snapshots from YAML text

Reads a snapshot from text laid out as the writer lays it out. At most 128 mappings and lists may be open
at once.
-/

namespace PegTree.Snapshot

open Text Yaml

/-- A line with a name and a whole number. -/
def readYamlNumber (indent : Nat) (name : String) : Reader Nat := fun text => do
  let rest ← expect (margin indent ++ name.toList ++ [':', ' ']) text
  let (digits, rest) := spanDigits rest
  let n ← digitsIn? 10 digits
  let rest ← expect ['\n'] rest
  some (n, rest)

/-- A line with a name and a string, in a node at a margin; `width` blanks stand in front of the name. -/
def readYamlText (indent width : Nat) (name : String) : Reader String := fun text => do
  let rest ← expect (margin width ++ name.toList ++ [':', ' ']) text
  let (value, rest) ← readScalar (indent + 2) rest
  some (String.ofList value, rest)

/-- The items of a list at a margin, given how one is read. -/
def readYamlItems (indent : Nat) (item : Reader Snapshot) : (fuel : Nat) → Reader (List Snapshot)
  | 0, text => some ([], text)
  | fuel + 1, text =>
    match expect (margin indent ++ ['-', ' ']) text with
    | none => some ([], text)
    | some rest => do
      let (value, rest) ← item rest
      let (more, rest) ← readYamlItems indent item fuel rest
      some (value :: more, rest)

/-- The part of a node that every node has: its item, with room for `room` more mappings. -/
def readYamlItem (room indent : Nat) : Reader SnapshotItem := fun text => do
  let (nodeType, rest) ← readYamlText indent 0 "node_type" text
  let (label, rest) ← readYamlText indent indent "label" rest
  let rest ← expect (yamlLine indent "span" ['\n']) rest
  if room = 0 then none
  else
    let (start, rest) ← readYamlNumber (indent + 2) "start" rest
    let (stop, rest) ← readYamlNumber (indent + 2) "end" rest
    some (⟨nodeType, label, ⟨start, stop⟩⟩, rest)

/-- A node at a margin, after the margin of its first line, with room for `room` more mappings and
lists. -/
def readYamlNode : (room : Nat) → (indent : Nat) → Reader Snapshot
  | 0, _, _ => none
  | room + 1, indent, text => do
    let (item, rest) ← readYamlItem room indent text
    match expect (yamlLine indent "children" ['\n']) rest with
    | none => some (.node item [], rest)
    | some rest =>
      match room with
      | 0 => none
      | inner + 1 =>
        let (below, rest) ← readYamlItems indent (readYamlNode inner (indent + 2)) rest.length rest
        some (.node item below, rest)

/-- The snapshot that a YAML text spells; nothing may follow it. -/
def ofYaml? (text : String) : Option Snapshot :=
  match readYamlNode 128 0 text.toList with
  | some (snapshot, []) => some snapshot
  | _ => none

end PegTree.Snapshot
