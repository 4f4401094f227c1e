import PegTree.Tree.View

/-!
# `Snapshot.Basic` — a tree without its store

A snapshot of a node keeps what the node is, its label and the units it covers, and the snapshots of its
children. Both data formats write snapshots, so neither looks at the store.
-/

namespace PegTree

open Text

/-- What a snapshot keeps of one node. -/
structure SnapshotItem where
  nodeType : String
  label : String
  span : Span := ⟨0, 0⟩
  deriving DecidableEq, Repr, Inhabited

/-- What is left of a tree without its store. -/
abbrev Snapshot := Rose SnapshotItem

/-- What a snapshot keeps of a node. -/
def Node.item (node : Node) : SnapshotItem :=
  ⟨node.kind.word, node.kind.value, node.span⟩

/-- The snapshot of a node and everything below it. -/
def Snapshot.ofView (view : Rose Visit) : Snapshot :=
  view.map (·.entry.item)

/-- The snapshot of a match tree. -/
def Snapshot.ofMatch (tree : MatchTree) : Snapshot :=
  tree.map Node.item

end PegTree
