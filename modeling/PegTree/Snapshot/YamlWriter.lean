import PegTree.Snapshot.Basic
import PegTree.Yaml.Scalar

/-!
# `Snapshot.YamlWriter` — snapshots as YAML text

A node is a block of lines, one for each of its parts, at one margin. The lines of a span are moved in by
two blanks; a child begins with a dash at the margin of its parent, and its own lines are moved in by two.
-/

namespace PegTree.Snapshot

open Text Yaml

/-- A line with a name and the value that follows it. -/
def yamlLine (indent : Nat) (name : String) (value : List Char) : List Char :=
  margin indent ++ name.toList ++ ':' :: value

/-- A line with a name and a number. -/
def yamlNumber (indent : Nat) (name : String) (n : Nat) : List Char :=
  yamlLine indent name (' ' :: (Nat.toDigits 10 n ++ ['\n']))

mutual
/-- The lines of a node at a margin, without the margin of the first line. -/
def yamlNode (indent : Nat) : Snapshot → List Char
  | .node item ts =>
    yamlLine 0 "node_type" (' ' :: scalar (indent + 2) item.nodeType.toList)
      ++ yamlLine indent "label" (' ' :: scalar (indent + 2) item.label.toList)
      ++ yamlLine indent "span" ['\n']
      ++ yamlNumber (indent + 2) "start" item.span.start
      ++ yamlNumber (indent + 2) "end" item.span.stop
      ++ (if ts.isEmpty then [] else yamlLine indent "children" ('\n' :: yamlNodes indent ts))
/-- The lines of the children of a node at a margin. -/
def yamlNodes (indent : Nat) : List Snapshot → List Char
  | [] => []
  | t :: ts => margin indent ++ '-' :: ' ' :: (yamlNode (indent + 2) t ++ yamlNodes indent ts)
end

/-- The YAML text of a snapshot. -/
def yaml (snapshot : Snapshot) : String :=
  String.ofList (yamlNode 0 snapshot)

end PegTree.Snapshot
