import PegTree.Text.Quoted
import PegTree.Tree.View

/-!
# `Tree.Inspect` — a tree written as nested terms

A node is written as its kind applied to its label and, if it has children, their list. The terms stand
on one line, or spread over lines with one item on each.
-/

namespace PegTree

open Text

namespace Rose

mutual
/-- A node and what lies below it on one line. -/
def inspect : Rose Visit → String
  | .node v ts =>
    v.entry.kind.word ++ "(" ++ quoted v.entry.kind.value
      ++ (if ts.isEmpty then "" else ", [" ++ ", ".intercalate (inspectList ts) ++ "]") ++ ")"
/-- Neighbouring nodes, each on one line. -/
def inspectList : List (Rose Visit) → List String
  | [] => []
  | t :: ts => inspect t :: inspectList ts
end

/-- Lines moved in by four blanks. -/
def indented (lines : List String) : List String :=
  lines.map ("    " ++ ·)

mutual
/-- A node and what lies below it spread over lines; the last line ends with `ending`. -/
def inspectLines (ending : String) : Rose Visit → List String
  | .node v ts =>
    (v.entry.kind.word ++ "(")
      :: (indented ((quoted v.entry.kind.value ++ ",")
          :: (if ts.isEmpty then [] else "[" :: (indented (inspectLinesList ts) ++ ["],"])))
        ++ [")" ++ ending])
/-- Neighbouring nodes spread over lines, each ended by a comma. -/
def inspectLinesList : List (Rose Visit) → List String
  | [] => []
  | t :: ts => inspectLines "," t ++ inspectLinesList ts
end

/-- A node and what lies below it, one item on each line. -/
def inspectSpread (view : Rose Visit) : String :=
  "\n".intercalate (view.inspectLines "")

end Rose

end PegTree
