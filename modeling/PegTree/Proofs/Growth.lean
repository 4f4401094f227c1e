import Mathlib.Data.List.Basic
import PegTree.Tree.Basic

/-!
# `Proofs.Growth` — the store that pushing a match tree makes

`Tree.ofMatch` pushes one node after the other, and every push changes the store twice: it adds an entry at the end
and lengthens the child list of the parent. So an entry is complete only when the last child below it has been
pushed. This file says what the finished store is, in closed form:

* `MatchTree.entries parent id t` — the entries of `t` numbered from `id` on, with their child lists complete;
* `Tree.grown parent ids es` — a store with `ids` appended to the children of `parent` and `es` at its end;
* `Tree.attach_eq`, `Tree.attachAll_eq` — attaching `t` below `parent` grows the store by the number of its root
  and by `t.entries`, and leaves every other entry as it is (`Tree.get?_attach_of_ne`);
* `Tree.ofMatch_eq` — `Tree.ofMatch t` holds `t.entries none 0` and nothing else.
-/

namespace PegTree

/-! ## The entries of a tree -/

/-- The numbers of the roots of `ts`, when all their nodes are numbered in pre-order from `first` on. -/
def Rose.rootsFrom {α : Type} : Nat → List (Rose α) → List Nat
  | _, [] => []
  | first, t :: ts => first :: Rose.rootsFrom (first + t.size) ts

mutual
/-- The store entries of a match tree whose root gets the number `id`, each node before those below it. -/
def MatchTree.entries (parent : Option Nat) (id : Nat) : MatchTree → List Entry
  | .node value ts =>
    ⟨value, parent, Rose.rootsFrom (id + 1) ts⟩ :: MatchTree.entriesList id (id + 1) ts
/-- The store entries of neighbouring match trees below `parent`, numbered from `first` on. -/
def MatchTree.entriesList (parent first : Nat) : List MatchTree → List Entry
  | [] => []
  | t :: ts =>
    MatchTree.entries (some parent) first t ++ MatchTree.entriesList parent (first + t.size) ts
end

namespace MatchTree

mutual
theorem entries_length : ∀ (t : MatchTree) (parent : Option Nat) (id : Nat),
    (entries parent id t).length = t.size
  | .node _ ts, _, id => by
      simp only [entries, Rose.size, List.length_cons, entriesList_length ts id (id + 1)]
      omega
theorem entriesList_length : ∀ (ts : List MatchTree) (parent first : Nat),
    (entriesList parent first ts).length = Rose.sizeList ts
  | [], _, _ => rfl
  | t :: ts, parent, first => by
      simp only [entriesList, Rose.sizeList, List.length_append, entries_length t,
        entriesList_length ts]
end

end MatchTree

/-! ## What a store answers -/

namespace Tree

variable {tree : Tree} {parent : Nat}

/-- A number that carries an entry lies in the store. -/
theorem get?_lt_size {id : Nat} {e : Entry} (h : tree.get? id = some e) : id < tree.size :=
  (Array.getElem?_eq_some_iff.mp h).1

theorem get?_eq_none_iff {id : Nat} : tree.get? id = none ↔ tree.size ≤ id :=
  Array.getElem?_eq_none_iff

/-- Stores with the same entries at all numbers are equal. -/
theorem ext_get? {a b : Tree} (h : ∀ id, a.get? id = b.get? id) : a = b := by
  obtain ⟨nodes⟩ := a
  obtain ⟨nodes'⟩ := b
  exact congrArg Tree.mk (Array.ext_getElem? h)

theorem get?_update (tree : Tree) (id : Nat) (change : Entry → Entry) (x : Nat) :
    (tree.update id change).get? x = if id = x then (tree.get? x).map change else tree.get? x :=
  Array.getElem?_modify

@[simp] theorem size_update (tree : Tree) (id : Nat) (change : Entry → Entry) :
    (tree.update id change).size = tree.size :=
  Array.size_modify

theorem get?_push (tree : Tree) (node : Node) (x : Nat) :
    (tree.push node).2.get? x = if x = tree.size then some { toNode := node } else tree.get? x :=
  Array.getElem?_push

theorem get?_size (tree : Tree) : tree.get? tree.size = none :=
  get?_eq_none_iff.mpr (Nat.le_refl _)

/-! ## Growing a store -/

/-- The store with `ids` appended to the children of `parent`, and with the entries `es` at its end. -/
def grown (tree : Tree) (parent : Nat) (ids : List Nat) (es : List Entry) : Tree :=
  ⟨tree.nodes.modify parent (fun e => { e with children := e.children ++ ids }) ++ es.toArray⟩

@[simp] theorem size_grown (tree : Tree) (parent : Nat) (ids : List Nat) (es : List Entry) :
    (tree.grown parent ids es).size = tree.size + es.length := by
  simp [grown, size]

/-- The entries of `tree.grown parent ids es`: those of `tree`, but for the child list of `parent`, and then `es`. -/
theorem get?_grown (tree : Tree) (parent : Nat) (ids : List Nat) (es : List Entry) (id : Nat) :
    (tree.grown parent ids es).get? id
      = if id < tree.size then
          (tree.get? id).map fun e => { e with children := e.children ++ if parent = id then ids else [] }
        else es[id - tree.size]? := by
  unfold grown get? size
  rw [Array.getElem?_append, Array.size_modify, Array.getElem?_modify]
  split
  · split
    · rfl
    · simp
  · exact List.getElem?_toArray

theorem grown_nil (tree : Tree) (parent : Nat) : tree.grown parent [] [] = tree := by
  refine ext_get? fun id => ?_
  rw [get?_grown]
  split
  · simp
  · next hid => rw [get?_eq_none_iff.mpr (Nat.not_lt.mp hid), List.getElem?_nil]

/-- Growing twice below one parent is growing once. -/
theorem grown_grown (hparent : parent < tree.size) (ids ids' : List Nat) (es es' : List Entry) :
    (tree.grown parent ids es).grown parent ids' es' = tree.grown parent (ids ++ ids') (es ++ es') := by
  refine ext_get? fun id => ?_
  rw [get?_grown, get?_grown, get?_grown, size_grown]
  by_cases hold : id < tree.size
  · rw [if_pos hold, if_pos (by omega), if_pos hold, Option.map_map]
    congr 1
    funext e
    by_cases hid : parent = id
    · simp [hid]
    · simp [hid]
  · rw [if_neg hold, if_neg hold]
    have hne : parent ≠ id := by omega
    by_cases hfirst : id < tree.size + es.length
    · rw [if_pos hfirst, List.getElem?_append_left (by omega)]
      simp [hne]
    · rw [if_neg hfirst, List.getElem?_append_right (by omega), Nat.sub_add_eq]

/-- Growing below the entry that was pushed last completes its child list. -/
theorem grown_last (tree : Tree) (parent : Nat) (node : Node) (above : Option Nat) (ids : List Nat)
    (es : List Entry) :
    (tree.grown parent [tree.size] [⟨node, above, []⟩]).grown tree.size ids es
      = tree.grown parent [tree.size] (⟨node, above, ids⟩ :: es) := by
  refine ext_get? fun id => ?_
  rw [get?_grown, get?_grown, get?_grown, size_grown, List.length_singleton]
  rcases Nat.lt_trichotomy id tree.size with hold | rfl | hnew
  · rw [if_pos hold, if_pos (by omega), if_pos hold, Option.map_map]
    congr 1
    funext e
    simp [Nat.ne_of_gt hold]
  · simp
  · rw [if_neg (by omega), if_neg (by omega)]
    obtain ⟨k, rfl⟩ := Nat.exists_eq_add_of_lt hnew
    rw [show tree.size + k + 1 - tree.size = k + 1 by omega, List.getElem?_cons_succ]
    congr 1
    omega

/-! ## Pushing a match tree -/

/-- One push: an entry with parent `parent` at the end, and its number in the child list of `parent`. -/
theorem pushChild_eq (hparent : parent < tree.size) (node : Node) :
    tree.pushChild parent node = (tree.size, tree.grown parent [tree.size] [⟨node, some parent, []⟩]) := by
  refine Prod.ext rfl (ext_get? fun id => ?_)
  show ((((tree.push node).2.update tree.size _).update parent _)).get? id = _
  rw [get?_update, get?_update, get?_push, get?_grown]
  rcases Nat.lt_trichotomy id tree.size with hold | rfl | hnew
  · rw [if_pos hold, if_neg (Nat.ne_of_gt hold), if_neg (Nat.ne_of_lt hold)]
    split
    · rfl
    · simp
  · simp [Nat.ne_of_lt hparent]
  · rw [if_neg (by omega), if_neg (by omega), if_neg (by omega), if_neg (by omega),
      get?_eq_none_iff.mpr (Nat.le_of_lt hnew), List.getElem?_eq_none (by simp; omega)]

mutual
/-- **Attaching a tree grows the store by its entries**, and `parent` gets the number of its root as last child. -/
theorem attach_eq : ∀ (t : MatchTree) (tree : Tree) (parent : Nat), parent < tree.size →
    tree.attach parent t = tree.grown parent [tree.size] (t.entries (some parent) tree.size)
  | .node value ts, tree, parent, hparent => by
      have hsize : (tree.grown parent [tree.size] [⟨value, some parent, []⟩]).size = tree.size + 1 := by
        rw [size_grown, List.length_singleton]
      have hbelow := attachAll_eq ts (tree.grown parent [tree.size] [⟨value, some parent, []⟩]) tree.size
        (by omega)
      rw [attach, pushChild_eq hparent, MatchTree.entries]
      simp only
      rw [hbelow, hsize, grown_last]
theorem attachAll_eq : ∀ (ts : List MatchTree) (tree : Tree) (parent : Nat), parent < tree.size →
    tree.attachAll parent ts
      = tree.grown parent (Rose.rootsFrom tree.size ts) (MatchTree.entriesList parent tree.size ts)
  | [], tree, parent, _ => (grown_nil tree parent).symm
  | t :: ts, tree, parent, hparent => by
      have hsize : (tree.attach parent t).size = tree.size + t.size := by
        rw [attach_eq t tree parent hparent, size_grown, MatchTree.entries_length]
      have hmore := attachAll_eq ts (tree.attach parent t) parent (by omega)
      rw [attachAll, hmore, hsize, attach_eq t tree parent hparent, grown_grown hparent, Rose.rootsFrom,
        MatchTree.entriesList, List.singleton_append]
end

/-- Pushing `t` below `parent` leaves the entries of all other nodes alone. -/
theorem get?_attach_of_ne (hparent : parent < tree.size) (t : MatchTree) {id : Nat} (hid : id < tree.size)
    (hne : id ≠ parent) : (tree.attach parent t).get? id = tree.get? id := by
  rw [attach_eq t tree parent hparent, get?_grown, if_pos hid, if_neg (Ne.symm hne)]
  simp

/-- **The store of a match holds the entries of its tree**, numbered from the root on, and nothing else. -/
theorem ofMatch_eq (t : MatchTree) : Tree.ofMatch t = ⟨(t.entries none 0).toArray⟩ := by
  obtain ⟨value, ts⟩ := t
  have hsize : (withRoot value).size = 1 := rfl
  rw [ofMatch, attachAll_eq ts (withRoot value) 0 (by omega), hsize]
  simp [grown, withRoot, MatchTree.entries]

end Tree

end PegTree
