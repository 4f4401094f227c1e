import PegTree.Json.Quoted
import PegTree.Snapshot.Basic

/-!
# `Snapshot.JsonWriter` — snapshots as JSON text

A node is an object with its type, its label, its span and, if it has any, its children. A layout says what
stands between a name and its value and in front of an item, so one writer serves the form without blanks
and the form spread over lines.
-/

namespace PegTree.Snapshot

open Text

/-- The blanks of a JSON text. -/
structure JsonLayout where
  /-- What stands between a name and its value. -/
  colon : List Char
  /-- What stands in front of an item or a closing bracket at a depth. -/
  lineBreak : Nat → List Char

/-- No blanks. -/
def JsonLayout.compact : JsonLayout where
  colon := [':']
  lineBreak _ := []

/-- Each item on a line of its own, moved in by two blanks for each bracket around it. -/
def JsonLayout.spread : JsonLayout where
  colon := [':', ' ']
  lineBreak depth := '\n' :: List.replicate (2 * depth) ' '

namespace JsonLayout

/-- A name and its value, on a line at a depth. -/
def member (layout : JsonLayout) (depth : Nat) (name : String) (value : List Char) : List Char :=
  layout.lineBreak depth ++ Json.quoted name.toList ++ layout.colon ++ value

/-- A span as an object. -/
def span (layout : JsonLayout) (depth : Nat) (span : Span) : List Char :=
  '\x7b' :: (layout.member (depth + 1) "start" (Nat.toDigits 10 span.start) ++ ','
    :: (layout.member (depth + 1) "end" (Nat.toDigits 10 span.stop) ++ layout.lineBreak depth ++ ['\x7d']))

mutual
/-- A node as an object whose brackets stand at a depth. -/
def node (layout : JsonLayout) (depth : Nat) : Snapshot → List Char
  | .node item ts =>
    '\x7b' :: (layout.member (depth + 1) "node_type" (Json.quoted item.nodeType.toList) ++ ','
      :: (layout.member (depth + 1) "label" (Json.quoted item.label.toList) ++ ','
        :: (layout.member (depth + 1) "span" (layout.span (depth + 1) item.span)
          ++ (if ts.isEmpty then []
            else ',' :: layout.member (depth + 1) "children"
              ('[' :: (layout.nodes (depth + 2) ts ++ layout.lineBreak (depth + 1) ++ [']'])))
          ++ layout.lineBreak depth ++ ['\x7d'])))
/-- Nodes as the items of an array, each on a line at a depth. -/
def nodes (layout : JsonLayout) (depth : Nat) : List Snapshot → List Char
  | [] => []
  | t :: ts =>
    layout.lineBreak depth ++ layout.node depth t
      ++ (if ts.isEmpty then [] else ',' :: layout.nodes depth ts)
end

end JsonLayout

/-- The JSON text of a snapshot without blanks. -/
def jsonCompact (snapshot : Snapshot) : String :=
  String.ofList (JsonLayout.compact.node 0 snapshot)

/-- The JSON text of a snapshot spread over lines. -/
def jsonSpread (snapshot : Snapshot) : String :=
  String.ofList (JsonLayout.spread.node 0 snapshot)

end PegTree.Snapshot
