import Mathlib.Logic.Relation
import PegTree.Proofs.EditHistory

/-!
# `Proofs.EditEffects` — when edits are refused, and what they change

`Proofs.Linkage` keeps what every edit keeps. This module says the rest: for each edit exactly when it is refused,
and with which error, and exactly which store it leaves otherwise.

A store after an edit is given as a whole, by `mapEntries` of what becomes of each entry (`Tree.attached`,
`Tree.detached`, `Tree.emptied`), so that everything that is not named there is the same as before. The edits
themselves write one entry after the other, and find cycles by `Tree.ancestors`. That they come to the same rests on
`Linked`: `child` is listed only at `parent? child`, and once, and `ancestors id` are the `x` with `Under id x`.

* `Linked.addChild_iff`, `Linked.removeChild_iff`, `Linked.removeAllChildren_iff` — the answers of the three edits
  are exactly `Added`, `Removed` and `Emptied`.
* `Linked.detached_attached` — removing undoes adding.
* `reachable_edits` — all of it for every `Reachable` store, with the store that the edit leaves in place.
-/

namespace PegTree

namespace Tree

variable {tree : Tree}

/-! ## Lying under a node -/

/-- `id = above`, or the parent of `id` is `Under` `above`. -/
def Under (tree : Tree) : (id above : Nat) → Prop :=
  Relation.ReflTransGen fun id above => tree.parent? id = some above

/-- The path of `Climb tree.parent? id` consists of the `x` with `Under id x`. -/
theorem mem_climb_iff {id x : Nat} {path : List Nat} (h : Climb tree.parent? id path) :
    x ∈ path ↔ tree.Under id x := by
  induction h with
  | @top id hnone =>
      rw [List.mem_singleton]
      constructor
      · rintro rfl
        exact .refl
      · intro hunder
        rcases hunder.cases_head with heq | ⟨above, hsome, -⟩
        · exact heq.symm
        · cases hnone.symm.trans hsome
  | @step id above path hsome _ ih =>
      rw [List.mem_cons, ih]
      constructor
      · rintro (rfl | hunder)
        · exact .refl
        · exact .head hsome hunder
      · intro hunder
        rcases hunder.cases_head with heq | ⟨above', hsome', hrest⟩
        · exact Or.inl heq.symm
        · cases hsome.symm.trans hsome'
          exact Or.inr hrest

theorem Linked.mem_ancestors_iff (hlinked : tree.Linked) {id x : Nat} (hid : id < tree.size) :
    x ∈ tree.ancestors id ↔ tree.Under id x :=
  mem_climb_iff (hlinked.climb_ancestors hid)

/-! ## Whole stores -/

/-- The store with `change id` applied to the entry of every `id`. -/
def mapEntries (tree : Tree) (change : Nat → Entry → Entry) : Tree :=
  ⟨tree.nodes.mapIdx change⟩

theorem get?_mapEntries (tree : Tree) (change : Nat → Entry → Entry) (id : Nat) :
    (tree.mapEntries change).get? id = (tree.get? id).map (change id) :=
  Array.getElem?_mapIdx

/-- `mapEntries change` is determined by its size and by `get?`. -/
theorem eq_mapEntries {tree' : Tree} {change : Nat → Entry → Entry} (hsize : tree'.size = tree.size)
    (hget : ∀ id entry, tree.get? id = some entry → tree'.get? id = some (change id entry)) :
    tree' = tree.mapEntries change := by
  refine ext_get? fun id => ?_
  rw [get?_mapEntries]
  cases hentry : tree.get? id with
  | none =>
      rw [get?_eq_none_iff, ← hsize] at hentry
      exact get?_eq_none_iff.mpr hentry
  | some entry => exact hget id entry hentry

/-- **The store with a node moved**: `child` names `parent` as its parent, its former parent no longer lists it, and
    `parent` lists it last. -/
def attached (tree : Tree) (parent child : Nat) : Tree :=
  tree.mapEntries fun id entry => { entry with
    parent := if id = child then some parent else entry.parent
    children := (if tree.parent? child = some id then entry.children.erase child else entry.children)
      ++ if id = parent then [child] else [] }

/-- **The store with a node cut off**: `child` has no parent, and `parent` no longer lists it. -/
def detached (tree : Tree) (parent child : Nat) : Tree :=
  tree.mapEntries fun id entry => { entry with
    parent := if id = child then none else entry.parent
    children := if id = parent then entry.children.erase child else entry.children }

/-- **The store with all children of a node cut off**: entries with `parent := some parent` get `none`, and `parent`
    lists nothing. -/
def emptied (tree : Tree) (parent : Nat) : Tree :=
  tree.mapEntries fun id entry => { entry with
    parent := if entry.parent = some parent then none else entry.parent
    children := if id = parent then [] else entry.children }

/-! ## What the edits answer -/

/-- **The answers of `addChild`.** The constructors stand in the order of the checks, and each excludes those before
    it: `parent` is tested before `child`, the kind of `parent` before the cycle. -/
inductive Added (tree : Tree) (parent child : Nat) : Except EditError Tree → Prop where
  | noParent (hparent : tree.size ≤ parent) : Added tree parent child (.error (.unknownNode parent))
  | noChild (hparent : parent < tree.size) (hchild : tree.size ≤ child) :
      Added tree parent child (.error (.unknownNode child))
  | literal {value : String} (hkind : tree.kind? parent = some (.literal value)) (hchild : child < tree.size) :
      Added tree parent child (.error (.literalParent parent))
  | cycle {name : String} (hkind : tree.kind? parent = some (.rule name)) (hchild : child < tree.size)
      (hcycle : child = 0 ∨ tree.Under parent child) : Added tree parent child (.error (.cycle parent child))
  | done {name : String} (hkind : tree.kind? parent = some (.rule name)) (hchild : child < tree.size)
      (hroot : child ≠ 0) (hunder : ¬ tree.Under parent child) :
      Added tree parent child (.ok (tree.attached parent child))

/-- **The answers of `removeChild`**, in the order of the checks. -/
inductive Removed (tree : Tree) (parent child : Nat) : Except EditError Tree → Prop where
  | noParent (hparent : tree.size ≤ parent) : Removed tree parent child (.error (.unknownNode parent))
  | noChild (hparent : parent < tree.size) (hchild : tree.size ≤ child) :
      Removed tree parent child (.error (.unknownNode child))
  | elsewhere (hparent : parent < tree.size) (hchild : child < tree.size)
      (hother : tree.parent? child ≠ some parent) : Removed tree parent child (.error (.notAChild parent child))
  | done (hchild : tree.parent? child = some parent) :
      Removed tree parent child (.ok (tree.detached parent child))

/-- **The answers of `removeAllChildren`.** -/
inductive Emptied (tree : Tree) (parent : Nat) : Except EditError Tree → Prop where
  | noParent (hparent : tree.size ≤ parent) : Emptied tree parent (.error (.unknownNode parent))
  | done (hparent : parent < tree.size) : Emptied tree parent (.ok (tree.emptied parent))

theorem get?_eq_some {id : Nat} (h : id < tree.size) : ∃ entry, tree.get? id = some entry :=
  ⟨_, Array.getElem?_eq_getElem h⟩

theorem get?_update_of_some {id x : Nat} {entry : Entry} (h : tree.get? x = some entry)
    (change : Entry → Entry) :
    (tree.update id change).get? x = some (if x = id then change entry else entry) := by
  rw [get?_update, h]
  by_cases hx : x = id
  · rw [if_pos hx, if_pos hx.symm, Option.map_some]
  · rw [if_neg hx, if_neg (Ne.symm hx)]

theorem lt_size_of_kind? {id : Nat} {kind : NodeKind} (h : tree.kind? id = some kind) : id < tree.size := by
  obtain ⟨entry, hentry, -⟩ := Option.map_eq_some_iff.mp h
  exact get?_lt_size hentry

/-- `Linked.mem_children_iff` at a given entry. -/
theorem Linked.mem_children_of_get? (hlinked : tree.Linked) {id child : Nat} {entry : Entry}
    (hget : tree.get? id = some entry) : child ∈ entry.children ↔ tree.parent? child = some id := by
  rw [← children_of_get? hget]
  exact hlinked.mem_children_iff

/-! ## Adding -/

/-- `unlink child` erases `child` from the one list that contains it, the one at `parent? child`. -/
theorem Linked.get?_unlink (hlinked : tree.Linked) {child id : Nat} {entry : Entry}
    (hget : tree.get? id = some entry) :
    (tree.unlink child).get? id = some { entry with
      children := if tree.parent? child = some id then entry.children.erase child else entry.children } := by
  have hnodup : entry.children.Nodup := by
    rw [← children_of_get? hget]
    exact hlinked.nodup id
  unfold unlink
  rw [← parent?]
  cases hold : tree.parent? child with
  | none => rw [if_neg (by simp), hget]
  | some old =>
      show (tree.update old _).get? id = _
      rw [get?_update, hget]
      by_cases hid : old = id
      · rw [if_pos hid, if_pos (congrArg some hid), Option.map_some, hnodup.erase_eq_filter]
      · rw [if_neg hid, if_neg (fun h => hid (Option.some.inj h))]

/-- The three writes of `addChild` together are `attached`. -/
theorem Linked.attached_eq (hlinked : tree.Linked) (parent child : Nat) :
    (((tree.unlink child).update child fun e => { e with parent := some parent }).update parent
      fun e => { e with children := e.children ++ [child] }) = tree.attached parent child := by
  refine eq_mapEntries ?_ fun id entry hget => ?_
  · rw [size_update, size_update, size_unlink]
  · rw [get?_update_of_some (get?_update_of_some (hlinked.get?_unlink hget) _)]
    by_cases hparent : id = parent
    · by_cases hchild : id = child
      · simp only [if_pos hparent, if_pos hchild]
      · simp only [if_pos hparent, if_neg hchild]
    · by_cases hchild : id = child
      · simp only [if_neg hparent, if_pos hchild, List.append_nil]
      · simp only [if_neg hparent, if_neg hchild, List.append_nil]

/-- The conditions of `Added` leave no case out; with their exclusion of each other this gives the converse in
    `Linked.addChild_iff`. -/
theorem exists_added (tree : Tree) (parent child : Nat) : ∃ result, Added tree parent child result := by
  by_cases hparent : parent < tree.size
  · by_cases hchild : child < tree.size
    · obtain ⟨above, habove⟩ := get?_eq_some hparent
      have hkind := kind?_of_get? habove
      cases hkind' : above.kind with
      | literal value => exact ⟨_, .literal (hkind.trans (congrArg some hkind')) hchild⟩
      | rule name =>
          rw [hkind'] at hkind
          by_cases hcycle : child = 0 ∨ tree.Under parent child
          · exact ⟨_, .cycle hkind hchild hcycle⟩
          · obtain ⟨hroot, hunder⟩ := not_or.mp hcycle
            exact ⟨_, .done hkind hchild hroot hunder⟩
    · exact ⟨_, .noChild hparent (Nat.not_lt.mp hchild)⟩
  · exact ⟨_, .noParent (Nat.not_lt.mp hparent)⟩

/-- `addChild` below a rule with a `child` that exists, in terms of `ancestors`. -/
theorem Linked.addChild_rule (hlinked : tree.Linked) {parent child : Nat} {name : String}
    (hkind : tree.kind? parent = some (.rule name)) (hchild : child < tree.size) :
    tree.addChild parent child
      = if child = 0 || (tree.ancestors parent).contains child then .error (.cycle parent child)
        else .ok (tree.attached parent child) := by
  obtain ⟨above, habove, hrule⟩ := Option.map_eq_some_iff.mp hkind
  obtain ⟨below, hbelow⟩ := get?_eq_some hchild
  have hnot : above.kind.isLiteral = false := by
    rw [hrule]
    rfl
  rw [Tree.addChild_eq, habove, hbelow]
  simp only [hnot, Bool.false_eq_true, if_false, hlinked.attached_eq]

theorem Added.addChild_eq (hlinked : tree.Linked) {parent child : Nat} {result : Except EditError Tree}
    (h : Added tree parent child result) : tree.addChild parent child = result := by
  cases h with
  | noParent hparent => rw [Tree.addChild_eq, get?_eq_none_iff.mpr hparent]
  | noChild hparent hchild =>
      obtain ⟨above, habove⟩ := get?_eq_some hparent
      rw [Tree.addChild_eq, habove, get?_eq_none_iff.mpr hchild]
  | literal hkind hchild =>
      obtain ⟨above, habove, hliteral⟩ := Option.map_eq_some_iff.mp hkind
      obtain ⟨below, hbelow⟩ := get?_eq_some hchild
      rw [Tree.addChild_eq, habove, hbelow]
      simp only [hliteral]
      rfl
  | cycle hkind hchild hcycle =>
      have hparent := lt_size_of_kind? hkind
      rw [hlinked.addChild_rule hkind hchild, if_pos]
      rw [Bool.or_eq_true, decide_eq_true_eq, List.contains_iff_mem, hlinked.mem_ancestors_iff hparent]
      exact hcycle
  | done hkind hchild hroot hunder =>
      have hparent := lt_size_of_kind? hkind
      rw [hlinked.addChild_rule hkind hchild, if_neg]
      rw [Bool.or_eq_true, decide_eq_true_eq, List.contains_iff_mem, hlinked.mem_ancestors_iff hparent]
      exact not_or.mpr ⟨hroot, hunder⟩

/-- **`addChild` is `Added`.** -/
theorem Linked.addChild_iff (hlinked : tree.Linked) {parent child : Nat} {result : Except EditError Tree} :
    tree.addChild parent child = result ↔ Added tree parent child result := by
  refine ⟨?_, fun h => h.addChild_eq hlinked⟩
  rintro rfl
  obtain ⟨result, hadded⟩ := exists_added tree parent child
  rwa [hadded.addChild_eq hlinked]

/-! ## Removing -/

theorem detached_eq (tree : Tree) (parent child : Nat) :
    ((tree.update parent fun e => { e with children := e.children.erase child }).update child
      fun e => { e with parent := none }) = tree.detached parent child := by
  refine eq_mapEntries ?_ fun id entry hget => ?_
  · rw [size_update, size_update]
  · rw [get?_update_of_some (get?_update_of_some hget _)]
    by_cases hparent : id = parent
    · by_cases hchild : id = child
      · simp only [if_pos hparent, if_pos hchild]
      · simp only [if_pos hparent, if_neg hchild]
    · by_cases hchild : id = child
      · simp only [if_neg hparent, if_pos hchild]
      · simp only [if_neg hparent, if_neg hchild]

theorem exists_removed (tree : Tree) (parent child : Nat) : ∃ result, Removed tree parent child result := by
  by_cases hparent : parent < tree.size
  · by_cases hchild : child < tree.size
    · by_cases hlisted : tree.parent? child = some parent
      · exact ⟨_, .done hlisted⟩
      · exact ⟨_, .elsewhere hparent hchild hlisted⟩
    · exact ⟨_, .noChild hparent (Nat.not_lt.mp hchild)⟩
  · exact ⟨_, .noParent (Nat.not_lt.mp hparent)⟩

theorem Removed.removeChild_eq (hlinked : tree.Linked) {parent child : Nat} {result : Except EditError Tree}
    (h : Removed tree parent child result) : tree.removeChild parent child = result := by
  cases h with
  | noParent hparent => rw [Tree.removeChild_eq, get?_eq_none_iff.mpr hparent]
  | noChild hparent hchild =>
      obtain ⟨above, habove⟩ := get?_eq_some hparent
      rw [Tree.removeChild_eq, habove, get?_eq_none_iff.mpr hchild]
  | elsewhere hparent hchild hother =>
      obtain ⟨above, habove⟩ := get?_eq_some hparent
      obtain ⟨below, hbelow⟩ := get?_eq_some hchild
      have hnot : ¬ above.children.contains child = true := by
        rw [List.contains_iff_mem, hlinked.mem_children_of_get? habove]
        exact hother
      rw [Tree.removeChild_eq, habove, hbelow]
      exact if_neg hnot
  | done hlisted =>
      obtain ⟨above, habove⟩ := get?_eq_some (hlinked.parent_lt hlisted)
      obtain ⟨below, hbelow⟩ := get?_eq_some (lt_size_of_parent? hlisted)
      have hmem : above.children.contains child = true := by
        rw [List.contains_iff_mem, hlinked.mem_children_of_get? habove]
        exact hlisted
      rw [Tree.removeChild_eq, habove, hbelow]
      simp only [if_pos hmem, detached_eq]

/-- **`removeChild` is `Removed`.** -/
theorem Linked.removeChild_iff (hlinked : tree.Linked) {parent child : Nat}
    {result : Except EditError Tree} :
    tree.removeChild parent child = result ↔ Removed tree parent child result := by
  refine ⟨?_, fun h => h.removeChild_eq hlinked⟩
  rintro rfl
  obtain ⟨result, hremoved⟩ := exists_removed tree parent child
  rwa [hremoved.removeChild_eq hlinked]

/-! ## Removing all -/

/-- Clearing the parents in `cleared` one by one sets `parent := none` exactly at the numbers in `cleared`. -/
theorem get?_foldl_clearParent (cleared : List Nat) {tree : Tree} {id : Nat} {entry : Entry}
    (hget : tree.get? id = some entry) :
    (cleared.foldl (fun t c => t.update c fun e => { e with parent := none }) tree).get? id
      = some { entry with parent := if id ∈ cleared then none else entry.parent } := by
  induction cleared generalizing tree entry with
  | nil => exact hget
  | cons c cleared ih =>
      rw [List.foldl_cons, ih (get?_update_of_some hget _)]
      by_cases hc : id = c
      · rw [if_pos hc, if_pos (List.mem_cons.mpr (Or.inl hc))]
        simp
      · simp [hc]

theorem Linked.emptied_eq (hlinked : tree.Linked) (parent : Nat) :
    (tree.children parent).foldl (fun t c => t.update c fun e => { e with parent := none })
      (tree.update parent fun e => { e with children := [] }) = tree.emptied parent := by
  refine eq_mapEntries ?_ fun id entry hget => ?_
  · have hlt : ∀ c ∈ tree.children parent, c < (tree.update parent fun e => { e with children := [] }).size := by
      intro c hc
      rw [size_update]
      exact hlinked.child_lt hc
    rw [(foldl_clearParent _ _ hlt).1, size_update]
  · rw [get?_foldl_clearParent _ (get?_update_of_some hget _)]
    -- the entries that are cleared are those that name the node
    have hmem : id ∈ tree.children parent ↔ entry.parent = some parent := by
      rw [hlinked.mem_children_iff, parent?_of_get? hget]
    by_cases hparent : id = parent
    · simp only [if_pos hparent, hmem]
    · simp only [if_neg hparent, hmem]

/-- **`removeAllChildren` is `Emptied`**; `.unknownNode` is its only refusal. -/
theorem Linked.removeAllChildren_iff (hlinked : tree.Linked) {parent : Nat}
    {result : Except EditError Tree} :
    tree.removeAllChildren parent = result ↔ Emptied tree parent result := by
  by_cases hparent : parent < tree.size
  · obtain ⟨above, habove⟩ := get?_eq_some hparent
    have hanswer : tree.removeAllChildren parent = .ok (tree.emptied parent) := by
      rw [Tree.removeAllChildren_eq, habove, ← hlinked.emptied_eq, children_of_get? habove]
    rw [hanswer]
    constructor
    · rintro rfl
      exact .done hparent
    · intro h
      cases h with
      | noParent hnone => exact absurd hparent (Nat.not_lt.mpr hnone)
      | done _ => rfl
  · have hnone := Nat.not_lt.mp hparent
    rw [Tree.removeAllChildren_eq, get?_eq_none_iff.mpr hnone]
    constructor
    · rintro rfl
      exact .noParent hnone
    · intro h
      cases h with
      | noParent _ => rfl
      | done hlt => exact absurd hlt hparent

/-! ## There and back -/

theorem parent?_attached {parent child : Nat} (hchild : child < tree.size) :
    (tree.attached parent child).parent? child = some parent := by
  obtain ⟨below, hbelow⟩ := get?_eq_some hchild
  rw [parent?, attached, get?_mapEntries, hbelow, Option.map_some, Option.bind_some, if_pos rfl]

/-- **`detached` undoes `attached`** if `parent? child = none`. -/
theorem Linked.detached_attached (hlinked : tree.Linked) {parent child : Nat}
    (hnone : tree.parent? child = none) : (tree.attached parent child).detached parent child = tree := by
  refine ext_get? fun id => ?_
  rw [detached, get?_mapEntries, attached, get?_mapEntries]
  cases hget : tree.get? id with
  | none => rfl
  | some entry =>
      have hnot : child ∉ entry.children := by
        rw [hlinked.mem_children_of_get? hget, hnone]
        nofun
      have hparent : (if id = child then none else if id = child then some parent else entry.parent)
          = entry.parent := by
        by_cases hid : id = child
        · rw [if_pos hid, ← parent?_of_get? hget, hid, hnone]
        · rw [if_neg hid, if_neg hid]
      have hlist : (if id = parent then (entry.children ++ if id = parent then [child] else []).erase child
          else entry.children ++ if id = parent then [child] else []) = entry.children := by
        by_cases hid : id = parent
        · rw [if_pos hid, if_pos hid, List.erase_append_right _ hnot, List.erase_cons_head, List.append_nil]
        · rw [if_neg hid, if_neg hid, List.append_nil]
      simp only [Option.map_some, hnone, reduceCtorEq, if_false, hparent, hlist]

/-- `apply` of an edit that `result` refuses, from what the edit leaves in place. -/
theorem apply_of_result_error {edit : Edit} {error : EditError}
    (h : edit.perform.result tree = .error error) : tree.apply edit = tree := by
  obtain ⟨left, hleft⟩ := Editor.result_eq_error.mp h
  rw [apply, hleft]
  exact edit.perform_atomic tree error left hleft

/-- `apply` of an edit that `result` accepts. -/
theorem apply_of_result_ok {edit : Edit} {tree' : Tree} (h : edit.perform.result tree = .ok tree') :
    tree.apply edit = tree' := by
  rw [apply, Editor.result_eq_ok.mp h]

/-- `removeChild parent child` undoes `addChild parent child` if `parent? child = none`. -/
theorem Linked.removeChild_of_addChild (hlinked : tree.Linked) {parent child : Nat} {tree' : Tree}
    (hnone : tree.parent? child = none) (h : tree.addChild parent child = .ok tree') :
    tree'.removeChild parent child = .ok tree := by
  have hlinked' := hlinked.addChild h
  cases hlinked.addChild_iff.mp h with
  | done _ hchild _ _ =>
      rw [Removed.removeChild_eq hlinked' (.done (parent?_attached hchild)),
        hlinked.detached_attached hnone]

/-! ## Every history -/

/-- **What edits do to every store that they can reach.** The answers of the three edits are `Added`, `Removed` and
    `Emptied`. Run in place, an edit that answers `.error` leaves `tree`, whichever edit it is, and an edit that answers
    `.ok` leaves the store of `attached`, `detached` or `emptied`; and `removeChild parent child` undoes
    `addChild parent child` where `child` had no parent. -/
theorem reachable_edits (h : Reachable tree) (parent child : Nat) :
    (∀ result, tree.addChild parent child = result ↔ Added tree parent child result) ∧
    (∀ result, tree.removeChild parent child = result ↔ Removed tree parent child result) ∧
    (∀ result, tree.removeAllChildren parent = result ↔ Emptied tree parent result) ∧
    (∀ error, tree.addChild parent child = .error error → tree.apply (.addChild parent child) = tree) ∧
    (∀ error, tree.removeChild parent child = .error error →
      tree.apply (.removeChild parent child) = tree) ∧
    (∀ error, tree.removeAllChildren parent = .error error →
      tree.apply (.removeAllChildren parent) = tree) ∧
    (∀ tree', tree.parent? child = none → tree.addChild parent child = .ok tree' →
      tree'.removeChild parent child = .ok tree) ∧
    (∀ (edit : Edit) error left, edit.perform.on tree = (.error error, left) → left = tree) ∧
    (∀ tree', tree.addChild parent child = .ok tree' → tree.apply (.addChild parent child) = tree') ∧
    (∀ tree', tree.removeChild parent child = .ok tree' → tree.apply (.removeChild parent child) = tree') ∧
    (∀ tree', tree.removeAllChildren parent = .ok tree' →
      tree.apply (.removeAllChildren parent) = tree') := by
  have hlinked := h.linked
  exact ⟨fun _ => hlinked.addChild_iff, fun _ => hlinked.removeChild_iff,
    fun _ => hlinked.removeAllChildren_iff, fun _ h => apply_of_result_error h,
    fun _ h => apply_of_result_error h, fun _ h => apply_of_result_error h,
    fun _ => hlinked.removeChild_of_addChild, fun edit => edit.perform_atomic tree,
    fun _ h => apply_of_result_ok h, fun _ h => apply_of_result_ok h, fun _ h => apply_of_result_ok h⟩

/-- The store of `movingHistory` with a node `3` that has no parent. -/
def spareStore : Tree :=
  (movingHistory ++ [Edit.createRule "args"]).foldl apply (Tree.new "call")

theorem reachable_edits_spare :
    Reachable spareStore ∧ spareStore.parent? 3 = none ∧
      ∃ tree', spareStore.addChild 0 3 = .ok tree' ∧ tree'.children 0 = [1, 3] ∧
        tree'.removeChild 0 3 = .ok spareStore := by
  have hreachable : Reachable spareStore := (Reachable.new "call").foldl_apply _
  obtain ⟨hadd, -, -, -, -, -, hback, -⟩ := reachable_edits hreachable 0 3
  have hunder : ¬ spareStore.Under 0 3 := by
    intro hunder
    rcases hunder.cases_head with heq | ⟨above, hsome, -⟩
    · cases heq
    · have hnone : spareStore.parent? 0 = none := by decide +kernel
      cases hnone.symm.trans hsome
  have hkind : spareStore.kind? 0 = some (.rule "call") := by decide +kernel
  have hadded := (hadd _).mpr (.done hkind (by decide +kernel) (by decide) hunder)
  have hdetached : spareStore.parent? 3 = none := by decide +kernel
  exact ⟨hreachable, hdetached, _, hadded, by decide +kernel, hback _ hdetached hadded⟩

end Tree

end PegTree
