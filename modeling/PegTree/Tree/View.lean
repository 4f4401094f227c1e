import PegTree.Tree.Basic

/-!
# `Tree.View` — a node of the store with everything below it

Questions about what lies below a node are asked of its view, a rose tree of node numbers and entries.
-/

namespace PegTree

/-- A node number and its entry. -/
structure Visit where
  id : Nat
  entry : Entry
  deriving DecidableEq, Repr

namespace Tree

/-- The node and what lies below it, `fuel` levels deep. -/
def viewFrom (tree : Tree) : (fuel id : Nat) → Option (Rose Visit)
  | 0, _ => none
  | fuel + 1, id =>
    (tree.get? id).map fun entry => .node ⟨id, entry⟩ (entry.children.filterMap (tree.viewFrom fuel))

/-- The node and everything below it. No node lies below itself, so there are at most as many levels as
the store has nodes. -/
def view? (tree : Tree) (id : Nat) : Option (Rose Visit) :=
  tree.viewFrom tree.size id

end Tree

/-- The literal of a visited node, if it is one. -/
def Visit.literal? (visit : Visit) : Option String :=
  visit.entry.kind.literal?

/-- Whether a visited node is a match of the named rule. -/
def Visit.isRule (visit : Visit) (name : String) : Bool :=
  visit.entry.kind.rule? == some name

namespace Rose

/-- The literals at and below a node, left to right. -/
def leaves (view : Rose Visit) : List Visit :=
  view.preorder.filter (·.literal?.isSome)

/-- The text a node matched: its literals one after the other. -/
def text (view : Rose Visit) : String :=
  String.join (view.leaves.filterMap (·.literal?))

/-- The first match of a rule below a node, each node before those below it, left to right. -/
def findRule? (view : Rose Visit) (name : String) : Option Visit :=
  (preorderList view.children).find? (·.isRule name)

/-- The first child that is a match of a rule. -/
def childForRule? (view : Rose Visit) (name : String) : Option (Rose Visit) :=
  view.children.find? (·.value.isRule name)

/-- The text that the first child for a rule matched. -/
def textForRule? (view : Rose Visit) (name : String) : Option String :=
  (view.childForRule? name).map text

end Rose

end PegTree
