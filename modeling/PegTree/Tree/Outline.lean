import PegTree.Text.Quoted
import PegTree.Tree.View

/-!
# `Tree.Outline` — a tree drawn one node to a line

The root stands alone; every other node hangs on its parent by a connector, and the nodes between a child
and its next sibling are marked by a bar. Long labels are cut and end in dots; literals are quoted after
the cut.
-/

namespace PegTree

open Text

/-- At most `width` characters of a text; three dots stand for the rest. -/
def shorten (width : Nat) (text : List Char) : List Char :=
  if width < text.length then text.take width ++ ['.', '.', '.'] else text

/-- The kind of a node and its label. -/
def NodeKind.outline (width : Nat) : NodeKind → List Char
  | .rule name => "rule: ".toList ++ shorten width name.toList
  | .literal value => "literal: ".toList ++ quotedChars (shorten width value.toList)

namespace Rose

mutual
/-- The lines below a node; `margin` stands in front of each of them. -/
def outlineBelow (width : Nat) (margin : List Char) : Rose Visit → List (List Char)
  | .node _ ts => outlineList width margin ts
/-- The lines of neighbouring nodes and of what lies below them. -/
def outlineList (width : Nat) (margin : List Char) : List (Rose Visit) → List (List Char)
  | [] => []
  | t :: ts =>
    let (connector, bar) : List Char × List Char :=
      if ts.isEmpty then (['└', '─', ' '], [' ', ' ']) else (['├', '─', ' '], ['│', ' '])
    (margin ++ connector ++ t.value.entry.kind.outline width)
      :: (outlineBelow width (margin ++ bar) t ++ outlineList width margin ts)
end

/-- The lines of a node and of everything below it. -/
def outlineLines (width : Nat) (view : Rose Visit) : List (List Char) :=
  view.value.entry.kind.outline width :: outlineBelow width [] view

/-- The outline of a node and of everything below it, each line ended. -/
def outline (width : Nat) (view : Rose Visit) : String :=
  String.ofList ((view.outlineLines width).flatMap (· ++ ['\n']))

end Rose

/-- The outline of a tree. -/
def Tree.outline (tree : Tree) (width : Nat) : String :=
  match tree.view? 0 with
  | some view => view.outline width
  | none => ""

end PegTree
