import PegTree.Proofs.Growth
import PegTree.Proofs.RoseTrees
import PegTree.Tree.View

/-!
# `Proofs.Placement` — a match tree inside the store

`Tree.ofMatch` numbers the nodes of a match tree as they are met. Here that numbering is turned around:
whoever holds a number of the store gets back the subtree that was placed there, and everything the store
answers about that number is read off the subtree.

* `Tree.Holds` — the store holds a list of entries from a number on;
* `MatchTree.exists_placed` — every number of a placed match tree carries one of its subtrees;
* `MatchTree.viewFrom_eq` — the view from there is that subtree, with numbers;
* `MatchTree.get?_rootsFrom` — its children in the store are its subtrees, in order.

The statements come in pairs, one for a tree and one for a list of neighbours, as the definitions do.
-/

namespace PegTree

/-! ## Entries from a number on -/

namespace Tree

variable {tree : Tree}

/-- `tree.nodes` contains `es` as a block that starts at `first`. -/
def Holds (tree : Tree) (first : Nat) (es : List Entry) : Prop :=
  ∃ before after, tree.nodes.toList = before ++ es ++ after ∧ before.length = first

theorem Holds.cons {first : Nat} {e : Entry} {es : List Entry} (h : tree.Holds first (e :: es)) :
    tree.get? first = some e ∧ tree.Holds (first + 1) es := by
  obtain ⟨before, after, hnodes, rfl⟩ := h
  refine ⟨?_, before ++ [e], after, by simp [hnodes], by simp⟩
  have hget : tree.nodes.toList[before.length]? = some e := by simp [hnodes]
  rw [Array.getElem?_toList] at hget
  exact hget

theorem Holds.append {first : Nat} {es fs : List Entry} (h : tree.Holds first (es ++ fs)) :
    tree.Holds first es ∧ tree.Holds (first + es.length) fs := by
  obtain ⟨before, after, hnodes, rfl⟩ := h
  exact ⟨⟨before, fs ++ after, by simp [hnodes], rfl⟩, before ++ es, after, by simp [hnodes], by simp⟩

theorem Holds.length_le {first : Nat} {es : List Entry} (h : tree.Holds first es) :
    es.length ≤ tree.size := by
  obtain ⟨before, after, hnodes, rfl⟩ := h
  have hlength := congrArg List.length hnodes
  simp only [List.length_append, Array.length_toList] at hlength
  unfold Tree.size
  omega

end Tree

/-! ## Placed trees -/

namespace MatchTree

/-- The entries of `t` from `id` on, below `parent`, are in the store. -/
def Placed (tree : Tree) (parent : Option Nat) (id : Nat) (t : MatchTree) : Prop :=
  tree.Holds id (entries parent id t)

/-- The entries of the neighbours `ts` from `first` on, all below `parent`, are in the store. -/
def PlacedList (tree : Tree) (parent first : Nat) (ts : List MatchTree) : Prop :=
  tree.Holds first (entriesList parent first ts)

variable {tree : Tree}

/-- `Tree.ofMatch t` holds `entries none 0 t`, by `Tree.ofMatch_eq`. -/
theorem placed_ofMatch (t : MatchTree) : Placed (Tree.ofMatch t) none 0 t :=
  ⟨[], [], by simp [Tree.ofMatch_eq], rfl⟩

theorem Placed.node {parent : Option Nat} {id : Nat} {value : Node} {ts : List MatchTree}
    (h : Placed tree parent id (.node value ts)) :
    tree.get? id = some ⟨value, parent, Rose.rootsFrom (id + 1) ts⟩ ∧
      PlacedList tree id (id + 1) ts :=
  Tree.Holds.cons h

theorem PlacedList.cons {parent first : Nat} {t : MatchTree} {ts : List MatchTree}
    (h : PlacedList tree parent first (t :: ts)) :
    Placed tree (some parent) first t ∧ PlacedList tree parent (first + t.size) ts := by
  obtain ⟨hhead, htail⟩ := Tree.Holds.append h
  rw [entries_length] at htail
  exact ⟨hhead, htail⟩

theorem Placed.size_le {parent : Option Nat} {id : Nat} {t : MatchTree} (h : Placed tree parent id t) :
    t.size ≤ tree.size := by
  rw [← entries_length t parent id]
  exact Tree.Holds.length_le h

theorem size_ofMatch (t : MatchTree) : (Tree.ofMatch t).size = t.size := by
  rw [Tree.ofMatch_eq, Tree.size, List.size_toArray, entries_length]

mutual
/-- **Every number of a placed tree carries one of its subtrees**: `id + k` for every `k < t.size`. -/
theorem exists_placed : ∀ (t : MatchTree) (parent : Option Nat) (id : Nat), Placed tree parent id t →
    ∀ k, k < t.size → ∃ above s, Rose.Sub s t ∧ Placed tree above (id + k) s
  | .node v ts, parent, id, h, 0, _ => ⟨parent, .node v ts, .refl, h⟩
  | .node v ts, parent, id, h, k + 1, hk => by
      obtain ⟨above, s, t, ht, hsub, hs⟩ := exists_placedList ts id (id + 1) h.node.2 k
        (by simp only [Rose.size] at hk; omega)
      exact ⟨above, s, .child ht hsub, by rwa [show id + (k + 1) = id + 1 + k by omega]⟩
theorem exists_placedList : ∀ (ts : List MatchTree) (parent first : Nat),
    PlacedList tree parent first ts → ∀ k, k < Rose.sizeList ts →
    ∃ above s, ∃ t ∈ ts, Rose.Sub s t ∧ Placed tree above (first + k) s
  | [], _, _, _, k, hk => absurd hk (Nat.not_lt_zero k)
  | t :: ts, parent, first, h, k, hk => by
      by_cases hlt : k < t.size
      · obtain ⟨above, s, hsub, hs⟩ := exists_placed t (some parent) first h.cons.1 k hlt
        exact ⟨above, s, t, List.mem_cons_self, hsub, hs⟩
      · -- past the first neighbour the numbering starts afresh
        obtain ⟨above, s, u, hu, hsub, hs⟩ := exists_placedList ts parent (first + t.size) h.cons.2
          (k - t.size) (by simp only [Rose.sizeList] at hk; omega)
        refine ⟨above, s, u, List.mem_cons_of_mem _ hu, hsub, ?_⟩
        rwa [show first + t.size + (k - t.size) = first + k by omega] at hs
end

/-- `exists_placed` for the store of a match. -/
theorem exists_placed_ofMatch {t : MatchTree} {id : Nat} (hid : id < (Tree.ofMatch t).size) :
    ∃ above s, Rose.Sub s t ∧ Placed (Tree.ofMatch t) above id s := by
  rw [size_ofMatch] at hid
  obtain ⟨above, s, hsub, hs⟩ := exists_placed t none 0 (placed_ofMatch t) id hid
  rw [Nat.zero_add] at hs
  exact ⟨above, s, hsub, hs⟩

/-- The nodes at `Rose.rootsFrom first ts` are the root values of `ts`, in order. -/
theorem get?_rootsFrom : ∀ (ts : List MatchTree) (parent first : Nat), PlacedList tree parent first ts →
    (Rose.rootsFrom first ts).map (fun c => (tree.get? c).map (·.toNode))
      = ts.map fun t => some t.value
  | [], _, _, _ => rfl
  | .node value us :: ts, parent, first, h => by
      have htail := get?_rootsFrom ts parent _ h.cons.2
      simp only [Rose.rootsFrom, List.map_cons, h.cons.1.node.1, htail, Option.map_some, Rose.value]

/-! ## Views -/

mutual
/-- The view of a match tree that is placed at `id` below `parent`. -/
def visits (parent : Option Nat) (id : Nat) : MatchTree → Rose Visit
  | .node value ts => .node ⟨id, ⟨value, parent, Rose.rootsFrom (id + 1) ts⟩⟩ (visitsList id (id + 1) ts)
def visitsList (parent first : Nat) : List MatchTree → List (Rose Visit)
  | [] => []
  | t :: ts => visits (some parent) first t :: visitsList parent (first + t.size) ts
end

mutual
/-- **The view of a placed tree is `visits`**, if `viewFrom` is given as many levels as the tree has nodes. -/
theorem viewFrom_eq : ∀ (t : MatchTree) (parent : Option Nat) (id fuel : Nat), Placed tree parent id t →
    t.size ≤ fuel → tree.viewFrom fuel id = some (visits parent id t)
  | .node v ts, parent, id, 0, h, hfuel => by simp [Rose.size] at hfuel
  | .node v ts, parent, id, fuel + 1, h, hfuel => by
      have hbelow := viewFrom_list ts id (id + 1) fuel h.node.2 (by simp only [Rose.size] at hfuel; omega)
      simp only [Tree.viewFrom, h.node.1, Option.map_some, hbelow, visits]
theorem viewFrom_list : ∀ (ts : List MatchTree) (parent first fuel : Nat),
    PlacedList tree parent first ts → Rose.sizeList ts ≤ fuel →
    (Rose.rootsFrom first ts).filterMap (tree.viewFrom fuel) = visitsList parent first ts
  | [], _, _, _, _, _ => rfl
  | t :: ts, parent, first, fuel, h, hfuel => by
      simp only [Rose.sizeList] at hfuel
      have hhead := viewFrom_eq t (some parent) first fuel h.cons.1 (by omega)
      have htail := viewFrom_list ts parent (first + t.size) fuel h.cons.2 (by omega)
      simp only [Rose.rootsFrom, visitsList, List.filterMap_cons, hhead, htail]
end

theorem Placed.view?_eq {t : MatchTree} {parent : Option Nat} {id : Nat} (h : Placed tree parent id t) :
    tree.view? id = some (visits parent id t) :=
  viewFrom_eq t parent id tree.size h h.size_le

mutual
theorem preorder_visits : ∀ (t : MatchTree) (parent : Option Nat) (id : Nat),
    (visits parent id t).preorder.map (·.entry.toNode) = t.preorder
  | .node v ts, _, id => by
      simp only [visits, Rose.preorder, List.map_cons, preorderList_visitsList ts id (id + 1)]
theorem preorderList_visitsList : ∀ (ts : List MatchTree) (parent first : Nat),
    (Rose.preorderList (visitsList parent first ts)).map (·.entry.toNode) = Rose.preorderList ts
  | [], _, _ => rfl
  | t :: ts, parent, first => by
      simp only [visitsList, Rose.preorderList, List.map_append, preorder_visits t,
        preorderList_visitsList ts]
end

/-- The literals of a match tree, left to right. -/
def leafValues (t : MatchTree) : List String :=
  t.preorder.filterMap (·.kind.literal?)

theorem leaves_visits (t : MatchTree) (parent : Option Nat) (id : Nat) :
    (visits parent id t).leaves.filterMap (·.literal?) = t.leafValues := by
  have hsome : (fun v : Visit => if v.literal?.isSome then v.literal? else none)
      = fun v => v.entry.toNode.kind.literal? := by
    funext v
    cases hliteral : v.literal? <;> exact hliteral.symm
  rw [leafValues, ← preorder_visits t parent id, List.filterMap_map]
  unfold Rose.leaves
  rw [List.filterMap_filter, hsome]
  rfl

theorem text_visits (t : MatchTree) (parent : Option Nat) (id : Nat) :
    (visits parent id t).text = String.join t.leafValues := by
  unfold Rose.text
  rw [leaves_visits]

end MatchTree

end PegTree
