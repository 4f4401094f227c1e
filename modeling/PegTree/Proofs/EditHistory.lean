import PegTree.Proofs.Linkage

/-!
# `Proofs.EditHistory` — every store that edits can reach

A `Reachable` store is `Tree.new rule` or `Tree.ofMatch found`, where `found` is the tree of an accepted input, after
any sequence of `Edit`s with any numbers. `Tree.apply` is the store that the edit leaves in place (`Editor.on`), whether
it answers `.ok` or `.error`.

* `Exact.linked` — the store of a match is linked because its numbering is: `parent? id = some above` gives
  `above < id` and `id ∈ children above` (`MatchTree.listed`).
* `Linked.apply` — an edit keeps `Linked`. A refused one leaves the store alone (`Edit.perform_atomic`), and for the
  others `Proofs.Linkage` has the store behind `.ok`.
* `Reachable.linked` — both by induction along the history.
-/

namespace PegTree

/-! ## Stores of matches -/

theorem Rose.le_of_mem_rootsFrom {α : Type} {ts : List (Rose α)} {first c : Nat}
    (h : c ∈ Rose.rootsFrom first ts) : first ≤ c := by
  induction ts generalizing first with
  | nil => exact absurd h List.not_mem_nil
  | cons t ts ih =>
      rcases List.mem_cons.mp h with rfl | h
      · exact Nat.le_refl _
      · exact Nat.le_trans (Nat.le_add_right _ _) (ih h)

theorem Rose.size_pos {α : Type} (t : Rose α) : 0 < t.size := by
  obtain ⟨v, ts⟩ := t
  simp only [Rose.size]
  omega

theorem Rose.nodup_rootsFrom {α : Type} (first : Nat) (ts : List (Rose α)) :
    (Rose.rootsFrom first ts).Nodup := by
  induction ts generalizing first with
  | nil => exact List.nodup_nil
  | cons t ts ih =>
      refine List.nodup_cons.mpr ⟨fun hmem => ?_, ih _⟩
      have hle := Rose.le_of_mem_rootsFrom hmem
      have hpos := t.size_pos
      omega

namespace MatchTree

variable {tree : Tree}

theorem Placed.parent?_eq {parent : Option Nat} {id : Nat} {t : MatchTree}
    (h : Placed tree parent id t) : tree.parent? id = parent := by
  obtain ⟨value, ts⟩ := t
  exact Tree.parent?_of_get? h.node.1

/-- `parent? c = some parent` for every `c` of neighbours that are placed below `parent`. -/
theorem PlacedList.parent?_eq {ts : List MatchTree} {parent first c : Nat}
    (h : PlacedList tree parent first ts) (hc : c ∈ Rose.rootsFrom first ts) :
    tree.parent? c = some parent := by
  induction ts generalizing first with
  | nil => exact absurd hc List.not_mem_nil
  | cons t ts ih =>
      rcases List.mem_cons.mp hc with rfl | hc
      · exact h.cons.1.parent?_eq
      · exact ih h.cons.2 hc

mutual
/-- **In a placed tree every number but the first has a parent** `above`, with `above < id + (k + 1)` and
    `id + (k + 1) ∈ children above`. -/
theorem listed : ∀ (t : MatchTree) (parent : Option Nat) (id : Nat), Placed tree parent id t →
    ∀ k, k + 1 < t.size → ∃ above, tree.parent? (id + (k + 1)) = some above ∧
      above < id + (k + 1) ∧ id + (k + 1) ∈ tree.children above
  | .node v ts, parent, id, h, k, hk => by
      have hlisted : ∀ c ∈ Rose.rootsFrom (id + 1) ts, c ∈ tree.children id := by
        intro c hc
        rwa [Tree.children_of_get? h.node.1]
      have hbelow := listedList ts id (id + 1) h.node.2 (Nat.lt_succ_self id) hlisted k
        (by simp only [Rose.size] at hk; omega)
      rwa [show id + 1 + k = id + (k + 1) by omega] at hbelow
theorem listedList : ∀ (ts : List MatchTree) (parent first : Nat), PlacedList tree parent first ts →
    parent < first → (∀ c ∈ Rose.rootsFrom first ts, c ∈ tree.children parent) →
    ∀ k, k < Rose.sizeList ts → ∃ above, tree.parent? (first + k) = some above ∧
      above < first + k ∧ first + k ∈ tree.children above
  | [], _, _, _, _, _, k, hk => absurd hk (Nat.not_lt_zero k)
  | t :: ts, parent, first, h, hlt, hlisted, k, hk => by
      by_cases hfirst : k < t.size
      · cases k with
        | zero => exact ⟨parent, h.cons.1.parent?_eq, hlt, hlisted first List.mem_cons_self⟩
        | succ k => exact listed t (some parent) first h.cons.1 k hfirst
      · have hrest := listedList ts parent (first + t.size) h.cons.2 (by omega)
          (fun c hc => hlisted c (List.mem_cons_of_mem _ hc)) (k - t.size)
          (by simp only [Rose.sizeList] at hk; omega)
        rwa [show first + t.size + (k - t.size) = first + k by omega] at hrest
end

/-- `parent? id = some above` in `Tree.ofMatch t` gives `above < id` and `id ∈ children above`. -/
theorem listed_ofMatch {t : MatchTree} {id above : Nat}
    (h : (Tree.ofMatch t).parent? id = some above) :
    above < id ∧ id ∈ (Tree.ofMatch t).children above := by
  have hplaced := placed_ofMatch t
  have hid : id < t.size := by
    rw [← size_ofMatch]
    exact Tree.lt_size_of_parent? h
  cases id with
  | zero => cases hplaced.parent?_eq.symm.trans h
  | succ k =>
      obtain ⟨above', hup, hlt, hmem⟩ := listed t none 0 hplaced k hid
      rw [Nat.zero_add] at hup hlt hmem
      cases hup.symm.trans h
      exact ⟨hlt, hmem⟩

/-- **`Tree.ofMatch t` is linked** if `t` is `Exact`, which makes literals leaves. -/
theorem Exact.linked {input : Input} {t : MatchTree} (h : Exact input t) : (Tree.ofMatch t).Linked where
  mem_children_iff := by
    intro parent child
    refine ⟨fun hmem => ?_, fun hparent => (listed_ofMatch hparent).2⟩
    obtain ⟨_, ⟨v, ts⟩, _, hs⟩ := exists_placed_ofMatch (Tree.lt_size_of_mem_children hmem)
    rw [Tree.children_of_get? hs.node.1] at hmem
    exact hs.node.2.parent?_eq hmem
  nodup := by
    intro id
    by_cases hid : id < (Tree.ofMatch t).size
    · obtain ⟨_, ⟨v, ts⟩, _, hs⟩ := exists_placed_ofMatch hid
      rw [Tree.children_of_get? hs.node.1]
      exact Rose.nodup_rootsFrom _ _
    · have hnone : (Tree.ofMatch t).get? id = none := Array.getElem?_eq_none (Nat.not_lt.mp hid)
      rw [Tree.children, hnone]
      exact List.nodup_nil
  literal := by
    intro id value hliteral
    obtain ⟨entry, hentry, _⟩ := Option.map_eq_some_iff.mp hliteral
    obtain ⟨_, ⟨v, ts⟩, hsub, hs⟩ := exists_placed_ofMatch (Tree.get?_lt_size hentry)
    rw [Tree.kind?_of_get? hs.node.1] at hliteral
    cases h.sub hsub with
    | literal _ => exact Tree.children_of_get? hs.node.1
    | rule _ _ => cases hliteral
  root := by
    rw [size_ofMatch]
    exact ⟨t.size_pos, (placed_ofMatch t).parent?_eq⟩
  climbs := Climb.exists_of_lt fun _ _ hup => (listed_ofMatch hup).1

end MatchTree

/-! ## Histories -/

inductive Edit where
  | createRule (name : String)
  | createLiteral (value : String)
  | addChild (parent child : Nat)
  | removeChild (parent child : Nat)
  | removeAllChildren (parent : Nat)
  deriving DecidableEq, Repr

/-- The call as an edit in place. -/
def Edit.perform : Edit → Editor Unit
  | .createRule name => modify fun tree => (tree.create (.rule name)).2
  | .createLiteral value => modify fun tree => (tree.create (.literal value)).2
  | .addChild parent child => Editor.addChild parent child
  | .removeChild parent child => Editor.removeChild parent child
  | .removeAllChildren parent => Editor.removeAllChildren parent

theorem Edit.perform_atomic (edit : Edit) (tree : Tree) : edit.perform.Atomic tree := by
  cases edit with
  | createRule name => exact .of_ok (Editor.on_modify _ tree)
  | createLiteral value => exact .of_ok (Editor.on_modify _ tree)
  | addChild parent child => exact Editor.addChild_atomic parent child tree
  | removeChild parent child => exact Editor.removeChild_atomic parent child tree
  | removeAllChildren parent => exact Editor.removeAllChildren_atomic parent tree

namespace Tree

variable {tree : Tree}

/-- The store that `edit.perform` leaves, whether it is refused or not. -/
def apply (tree : Tree) (edit : Edit) : Tree :=
  (edit.perform.on tree).2

/-- **The stores that can come up**: `Tree.new rule`, or `Tree.ofMatch` of an accepted input, after any edits,
    accepted or refused. -/
inductive Reachable : Tree → Prop where
  | new (rule : String) : Reachable (Tree.new rule)
  | parsed {table index input settings found} :
      Match.matchInput table index input settings = .ok found → Reachable (Tree.ofMatch found)
  | edited {store : Tree} (edit : Edit) : Reachable store → Reachable (store.apply edit)

theorem Reachable.foldl_apply (h : Reachable tree) (edits : List Edit) :
    Reachable (edits.foldl apply tree) := by
  induction edits generalizing tree with
  | nil => exact h
  | cons edit edits ih => exact ih (h.edited edit)

theorem linked_new (rule : String) : (Tree.new rule).Linked := by
  have hexact : MatchTree.Exact (.tokens #[]) (.node ⟨.rule rule, ⟨0, 0⟩⟩ []) :=
    .rule rfl fun _ ht => absurd ht List.not_mem_nil
  exact hexact.linked

/-- Behind `.error` stands `tree` (`hatomic`), behind `.ok ()` the result (`hok`). -/
theorem Linked.on_edit (hlinked : tree.Linked) {edit : Editor Unit} (hatomic : edit.Atomic tree)
    (hok : ∀ tree', edit.result tree = .ok tree' → tree'.Linked) : (edit.on tree).2.Linked := by
  cases hanswer : edit.on tree with
  | mk answer left =>
      cases answer with
      | ok _ => exact hok left (Editor.result_eq_ok.mpr hanswer)
      | error error =>
          rw [hatomic error left hanswer]
          exact hlinked

/-- **`apply` keeps `Linked`**, for every `Edit`. -/
theorem Linked.apply (hlinked : tree.Linked) (edit : Edit) : (tree.apply edit).Linked := by
  have hatomic := edit.perform_atomic tree
  cases edit with
  | createRule name => exact hlinked.create _
  | createLiteral value => exact hlinked.create _
  | addChild parent child => exact hlinked.on_edit hatomic fun _ h => hlinked.addChild h
  | removeChild parent child => exact hlinked.on_edit hatomic fun _ h => hlinked.removeChild h
  | removeAllChildren parent => exact hlinked.on_edit hatomic fun _ h => hlinked.removeAllChildren h

theorem Reachable.linked (h : Reachable tree) : tree.Linked := by
  induction h with
  | new rule => exact linked_new rule
  | parsed hmatch => exact (Match.matchInput_exact hmatch).2.linked
  | edited edit _ ih => exact ih.apply edit

/-- **What holds in every store after every history.** Numbers in parent fields and child lists are below `size`;
    `child ∈ children parent ↔ parent? child = some parent`; child lists have no duplicates and are disjoint, and
    literals list nothing; the root has no parent; and `ancestors id` is the whole climb from `id`, which ends. -/
theorem reachable_links (h : Reachable tree) :
    (∀ id entry, tree.get? id = some entry →
      (∀ parent, entry.parent = some parent → parent < tree.size) ∧
      (∀ child ∈ entry.children, child < tree.size) ∧ entry.children.Nodup ∧
      (entry.kind.isLiteral → entry.children = [])) ∧
    (∀ parent child, child ∈ tree.children parent ↔ tree.parent? child = some parent) ∧
    (∀ parent parent' child, child ∈ tree.children parent → child ∈ tree.children parent' →
      parent = parent') ∧
    (∃ root, tree.get? 0 = some root ∧ root.parent = none) ∧
    (∀ id, id < tree.size → Climb tree.parent? id (tree.ancestors id)) := by
  have hlinked := h.linked
  refine ⟨fun id entry hentry => ⟨fun parent hparent => ?_, fun child hchild => ?_, ?_, fun hliteral => ?_⟩,
    fun _ _ => hlinked.mem_children_iff, fun parent parent' child hchild hchild' => ?_, ?_,
    fun id hid => hlinked.climb_ancestors hid⟩
  · exact hlinked.parent_lt ((parent?_of_get? hentry).trans hparent)
  · exact hlinked.child_lt ((children_of_get? hentry).symm ▸ hchild)
  · rw [← children_of_get? hentry]
    exact hlinked.nodup id
  · cases hkind : entry.kind with
    | rule name => simp [hkind, NodeKind.isLiteral, NodeKind.literal?] at hliteral
    | literal value =>
        rw [← children_of_get? hentry]
        exact hlinked.literal id value ((kind?_of_get? hentry).trans (congrArg some hkind))
  · have hsame := (hlinked.mem_children_iff.mp hchild).symm.trans (hlinked.mem_children_iff.mp hchild')
    exact Option.some.inj hsame
  · obtain ⟨hpos, hroot⟩ := hlinked.root
    have hget : tree.get? 0 = some _ := Array.getElem?_eq_getElem hpos
    exact ⟨_, hget, (parent?_of_get? hget).symm.trans hroot⟩

/-- A node is moved from one parent to another, and calls are refused: below itself, below a literal, below a number
    that is not there. -/
def movingHistory : List Edit :=
  [.createRule "name", .createLiteral "f", .addChild 1 2, .addChild 0 1, .addChild 0 2, .addChild 1 0,
    .addChild 2 1, .addChild 9 1, .removeChild 1 2, .addChild 1 2]

theorem reachable_links_moving :
    Reachable (movingHistory.foldl apply (Tree.new "call")) ∧
      (movingHistory.foldl apply (Tree.new "call")).children 0 = [1] ∧
      (movingHistory.foldl apply (Tree.new "call")).parent? 2 = some 1 ∧
      Climb (movingHistory.foldl apply (Tree.new "call")).parent? 2
        ((movingHistory.foldl apply (Tree.new "call")).ancestors 2) := by
  have hreachable := (Reachable.new "call").foldl_apply movingHistory
  obtain ⟨_, _, _, _, hclimb⟩ := reachable_links hreachable
  exact ⟨hreachable, by decide +kernel, by decide +kernel, hclimb 2 (by decide +kernel)⟩

end Tree

end PegTree
