import PegTree.Tree.Node

/-!
# `Tree.Basic` — an editable store of nodes

A `Tree` keeps its nodes in one store and names them by their index there; node 0 is the root. Every node
knows its parent, if it has one, and its children in order. Nodes are never thrown away: a node that is
taken out of its parent's children stays in the store, detached.

## Contents

* `Entry`, `Tree`, `Tree.new`;
* `Tree.push`, `Tree.pushChild`, `Tree.attach`, `Tree.ofMatch` — a match tree moved into a store, node by node;
* `EditError` and its wording;
* `Editor` — edits in place: `Editor.addChild`, `Editor.removeChild`, `Editor.removeAllChildren`;
* `Tree.create`, `Tree.addChild`, `Tree.removeChild`, `Tree.removeAllChildren` — what they make of a store.
-/

namespace PegTree

/-- A node of the store: what it stands for, its parent and its children. -/
structure Entry extends Node where
  parent : Option Nat := none
  children : List Nat := []
  deriving DecidableEq, Repr, Inhabited

/-- A store of nodes; node 0 is the root. -/
structure Tree where
  nodes : Array Entry
  deriving DecidableEq, Repr

namespace Tree

/-- A tree whose root is `node`, with no children. -/
def withRoot (node : Node) : Tree :=
  ⟨#[{ toNode := node }]⟩

/-- A tree whose root is a rule with no children. -/
def new (rule : String) : Tree :=
  withRoot { kind := .rule rule }

/-- The number of nodes, detached ones included. -/
def size (tree : Tree) : Nat :=
  tree.nodes.size

/-- Whether the store has no nodes. -/
def isEmpty (tree : Tree) : Bool :=
  tree.nodes.isEmpty

/-- The node with a number. -/
def get? (tree : Tree) (id : Nat) : Option Entry :=
  tree.nodes[id]?

/-- Changes one node. -/
def update (tree : Tree) (id : Nat) (change : Entry → Entry) : Tree :=
  ⟨tree.nodes.modify id change⟩

/-- Adds `node`, detached, and gives its number, the next one that is free. -/
def push (tree : Tree) (node : Node) : Nat × Tree :=
  (tree.size, ⟨tree.nodes.push { toNode := node }⟩)

/-- Adds a detached node and gives its number. -/
def create (tree : Tree) (kind : NodeKind) : Nat × Tree :=
  tree.push { kind }

/-! ## Trees from matches -/

/-- Adds `node` as the last child of `parent` and gives its number. -/
def pushChild (tree : Tree) (parent : Nat) (node : Node) : Nat × Tree :=
  let (id, tree) := tree.push node
  let tree := tree.update id fun e => { e with parent := some parent }
  (id, tree.update parent fun e => { e with children := e.children ++ [id] })

mutual
/-- Adds the nodes of a match tree below `parent`, each node before those below it. -/
def attach (tree : Tree) (parent : Nat) : MatchTree → Tree
  | .node value ts =>
    let (id, tree) := tree.pushChild parent value
    attachAll tree id ts
/-- Adds neighbouring match trees below `parent`, one after the other. -/
def attachAll (tree : Tree) (parent : Nat) : List MatchTree → Tree
  | [] => tree
  | t :: ts => attachAll (attach tree parent t) parent ts
end

/-- A match tree as a store: its root first, and then what stands below it. -/
def ofMatch : MatchTree → Tree
  | .node value ts => (withRoot value).attachAll 0 ts

end Tree

/-! ## Edits -/

/-- Why an edit is refused. -/
inductive EditError where
  /-- There is no node with this number. -/
  | unknownNode (id : Nat)
  /-- A literal has no children. -/
  | literalParent (id : Nat)
  /-- The node has another parent or none. -/
  | notAChild (parent child : Nat)
  /-- The node would come to lie below itself, or the root below another node. -/
  | cycle (parent child : Nat)
  deriving DecidableEq, Repr

/-- A node number as messages show it. -/
def nodeText (id : Nat) : String :=
  "#" ++ toString id

/-- The error in words. -/
def EditError.message : EditError → String
  | .unknownNode id => "node " ++ nodeText id ++ " does not belong to this tree"
  | .literalParent id => "literal node " ++ nodeText id ++ " cannot have children"
  | .notAChild parent child =>
    "node " ++ nodeText child ++ " is not a child of node " ++ nodeText parent
  | .cycle parent child =>
    "attaching node " ++ nodeText child ++ " under node " ++ nodeText parent ++ " would create a cycle"

namespace Tree

/-- The node and the nodes above it, nearest first; at most `fuel` of them. -/
def ancestorsFrom (tree : Tree) : (fuel id : Nat) → List Nat
  | 0, _ => []
  | fuel + 1, id =>
    match (tree.get? id).bind (·.parent) with
    | some parent => id :: tree.ancestorsFrom fuel parent
    | none => [id]

/-- The node and the nodes above it, nearest first. No node lies above itself, so there are at most as
many as the store has. -/
def ancestors (tree : Tree) (id : Nat) : List Nat :=
  tree.ancestorsFrom tree.size id

/-- Takes a node out of the children of its parent; its parent field is left to the caller. -/
def unlink (tree : Tree) (child : Nat) : Tree :=
  match (tree.get? child).bind (·.parent) with
  | some old => tree.update old fun e => { e with children := e.children.filter (· != child) }
  | none => tree

end Tree

/-- **Edits in place.** From a store an edit makes an answer, or the reason why it is refused, and in either case the
store that is left. -/
abbrev Editor := ExceptT EditError (StateM Tree)

namespace Editor

variable {α : Type}

/-- The answer of an edit of `tree`, and the store that is left. -/
def on (edit : Editor α) (tree : Tree) : Except EditError α × Tree :=
  edit.run.run tree

/-- The store after an edit of `tree`, or why it is refused. -/
def result (edit : Editor Unit) (tree : Tree) : Except EditError Tree :=
  let (answer, left) := edit.on tree
  answer.map fun _ => left

/-- Refuses the edit with `error` if the condition holds. -/
def refuseIf (condition : Bool) (error : EditError) : Editor Unit :=
  if condition then throw error else pure ()

/-- Refuses a number that no node has. -/
def check (id : Nat) : Editor Unit := do
  refuseIf ((← get).get? id).isNone (.unknownNode id)

/-- Makes `child` the last child of `parent`, taking it out of its former place. -/
def addChild (parent child : Nat) : Editor Unit := do
  check parent
  check child
  let tree ← get
  refuseIf ((tree.get? parent).any (·.kind.isLiteral)) (.literalParent parent)
  refuseIf (child = 0 || (tree.ancestors parent).contains child) (.cycle parent child)
  modify fun tree => tree.unlink child
  modify fun tree => tree.update child fun e => { e with parent := some parent }
  modify fun tree => tree.update parent fun e => { e with children := e.children ++ [child] }

/-- Detaches `child` from `parent`. -/
def removeChild (parent child : Nat) : Editor Unit := do
  check parent
  check child
  refuseIf (!((← get).get? parent).any (·.children.contains child)) (.notAChild parent child)
  modify fun tree => tree.update parent fun e => { e with children := e.children.erase child }
  modify fun tree => tree.update child fun e => { e with parent := none }

/-- Detaches all children of `parent`. -/
def removeAllChildren (parent : Nat) : Editor Unit := do
  check parent
  let children := ((← get).get? parent).elim [] (·.children)
  modify fun tree => tree.update parent fun e => { e with children := [] }
  children.forM fun child => modify fun tree => tree.update child fun e => { e with parent := none }

end Editor

namespace Tree

/-- The store with `child` as the last child of `parent`, or why it cannot be. -/
def addChild (tree : Tree) (parent child : Nat) : Except EditError Tree :=
  (Editor.addChild parent child).result tree

/-- The store with `child` detached from `parent`, or why it cannot be. -/
def removeChild (tree : Tree) (parent child : Nat) : Except EditError Tree :=
  (Editor.removeChild parent child).result tree

/-- The store with all children of `parent` detached, or why they cannot be. -/
def removeAllChildren (tree : Tree) (parent : Nat) : Except EditError Tree :=
  (Editor.removeAllChildren parent).result tree

end Tree

end PegTree
