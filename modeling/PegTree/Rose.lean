/-!
# `Rose` — trees with any number of children

One generic tree type serves match trees, views of the tree store and snapshots.

## Contents

* `Rose`, `Rose.value`, `Rose.children` and decidable equality;
* `Rose.size`, `Rose.preorder` — the nodes, each before its children, left to right;
* `Rose.map` — the same shape with other values.
-/

namespace PegTree

/-- A value and an ordered list of subtrees. -/
inductive Rose (α : Type) where
  | node (value : α) (children : List (Rose α))
  deriving Repr

namespace Rose

variable {α β : Type}

/-- The value at the root. -/
def value : Rose α → α
  | .node v _ => v

/-- The subtrees of the root. -/
def children : Rose α → List (Rose α)
  | .node _ ts => ts

mutual
/-- Decides equality of trees. -/
def decEq [DecidableEq α] : (s t : Rose α) → Decidable (s = t)
  | .node v ss, .node w ts =>
    if h : v = w then
      match decEqList ss ts with
      | .isTrue hs => .isTrue (by rw [h, hs])
      | .isFalse hs => .isFalse (by simp [hs])
    else .isFalse (by simp [h])
/-- Decides equality of lists of trees. -/
def decEqList [DecidableEq α] : (ss ts : List (Rose α)) → Decidable (ss = ts)
  | [], [] => .isTrue rfl
  | [], _ :: _ => .isFalse (by simp)
  | _ :: _, [] => .isFalse (by simp)
  | s :: ss, t :: ts =>
    match decEq s t with
    | .isTrue h =>
      match decEqList ss ts with
      | .isTrue hs => .isTrue (by rw [h, hs])
      | .isFalse hs => .isFalse (by simp [hs])
    | .isFalse h => .isFalse (by simp [h])
end

instance [DecidableEq α] : DecidableEq (Rose α) := decEq

mutual
/-- The number of nodes. -/
def size : Rose α → Nat
  | .node _ ts => 1 + sizeList ts
/-- The number of nodes of a list of trees. -/
def sizeList : List (Rose α) → Nat
  | [] => 0
  | t :: ts => size t + sizeList ts
end

mutual
/-- The values of all nodes, each before those below it, left to right. -/
def preorder : Rose α → List α
  | .node v ts => v :: preorderList ts
/-- The values of all nodes of a list of trees. -/
def preorderList : List (Rose α) → List α
  | [] => []
  | t :: ts => preorder t ++ preorderList ts
end

mutual
/-- The same tree with `f` applied to every value. -/
def map (f : α → β) : Rose α → Rose β
  | .node v ts => .node (f v) (mapList f ts)
/-- The same trees with `f` applied to every value. -/
def mapList (f : α → β) : List (Rose α) → List (Rose β)
  | [] => []
  | t :: ts => map f t :: mapList f ts
end

end Rose

end PegTree
