import Mathlib.Data.List.Perm.Subperm
import PegTree.Proofs.Coverage
import PegTree.Proofs.InPlace

/-!
# `Proofs.Linkage` — parents and children keep agreeing

A store says twice who lies below whom: every entry names its parent, and every entry lists its children.
The edits write the two in separate places. `Tree.Linked` says what keeps them one tree:

* `child ∈ children parent ↔ parent? child = some parent`, and no child is listed twice;
* literals list nothing, and `0` has no parent;
* from every number `Climb` leads to one without parent.

Everything an edit does is first put as its effect on `kind?`, `parent?` and `children`. From then on only these
are spoken of. `create` changes none of the links, both ways of removing detach a set of nodes (`Linked.detach`), and
adding moves one node to a place that does not lie below it (`Linked.attach`); for the last, `Tree.ancestors` has to be
complete, which is its agreement with `Climb` (`Linked.climb_ancestors`).

`Reachable.linked` carries this along any history of edits.
-/

namespace PegTree

/-! ## The way up -/

/-- **The way up** from a number: itself, its parent, and so on to a number without parent. -/
inductive Climb (up : Nat → Option Nat) : Nat → List Nat → Prop where
  | top {id} : up id = none → Climb up id [id]
  | step {id above path} : up id = some above → Climb up above path → Climb up id (id :: path)

namespace Climb

variable {up : Nat → Option Nat}

theorem unique {id : Nat} {path path' : List Nat} (h : Climb up id path) (h' : Climb up id path') :
    path = path' := by
  induction h generalizing path' with
  | top hnone =>
      cases h' with
      | top _ => rfl
      | step hsome _ => cases hnone.symm.trans hsome
  | step hsome _ ih =>
      cases h' with
      | top hnone => cases hnone.symm.trans hsome
      | step hsome' h' =>
          cases hsome.symm.trans hsome'
          rw [ih h']

/-- Every `x` on a way up has a way up of its own, which is not longer. -/
theorem rest {id x : Nat} {path : List Nat} (h : Climb up id path) (hx : x ∈ path) :
    ∃ rest, Climb up x rest ∧ rest.length ≤ path.length := by
  induction h with
  | top hnone =>
      cases List.mem_singleton.mp hx
      exact ⟨_, .top hnone, Nat.le_refl _⟩
  | step hsome h ih =>
      rcases List.mem_cons.mp hx with rfl | hx
      · exact ⟨_, .step hsome h, Nat.le_refl _⟩
      · obtain ⟨rest, hrest, hlength⟩ := ih hx
        exact ⟨rest, hrest, Nat.le_succ_of_le hlength⟩

theorem nodup {id : Nat} {path : List Nat} (h : Climb up id path) : path.Nodup := by
  induction h with
  | top _ => simp
  | @step id above path hsome h ih =>
      refine List.nodup_cons.mpr ⟨fun hmem => ?_, ih⟩
      -- from `id` there would be a second way up, shorter than the first
      obtain ⟨rest, hrest, hlength⟩ := h.rest hmem
      rw [hrest.unique (.step hsome h), List.length_cons] at hlength
      omega

theorem forall_mem {P : Nat → Prop} {id : Nat} {path : List Nat} (h : Climb up id path) (hid : P id)
    (hup : ∀ x above, up x = some above → P above) : ∀ x ∈ path, P x := by
  induction h with
  | top _ =>
      intro x hx
      rwa [List.mem_singleton.mp hx]
  | step hsome _ ih =>
      intro x hx
      rcases List.mem_cons.mp hx with rfl | hx
      · exact hid
      · exact ih (hup _ _ hsome) x hx

/-- `up x = some above → above < x` makes every way up end. -/
theorem exists_of_lt (hlt : ∀ x above, up x = some above → above < x) (id : Nat) :
    ∃ path, Climb up id path := by
  induction id using Nat.strongRecOn with
  | ind id ih =>
      cases hup : up id with
      | none => exact ⟨_, .top hup⟩
      | some above =>
          obtain ⟨path, hpath⟩ := ih above (hlt id above hup)
          exact ⟨_, .step hup hpath⟩

/-- Ways up still end if `up` becomes `none` at some places. -/
theorem exists_cut {up' : Nat → Option Nat} (hcut : ∀ x, up' x = none ∨ up' x = up x) {id : Nat}
    {path : List Nat} (h : Climb up id path) : ∃ path', Climb up' id path' := by
  induction h with
  | @top id hnone =>
      have hnone' : up' id = none := (hcut id).elim (fun h => h) (fun h => h.trans hnone)
      exact ⟨_, .top hnone'⟩
  | @step id above path hsome _ ih =>
      rcases hcut id with hnone | hsame
      · exact ⟨_, .top hnone⟩
      · obtain ⟨path', hpath'⟩ := ih
        exact ⟨_, .step (hsame.trans hsome) hpath'⟩

/-- `Climb` depends on `up` only along the path. -/
theorem congr {up' : Nat → Option Nat} {id : Nat} {path : List Nat} (h : Climb up id path)
    (hsame : ∀ x ∈ path, up' x = up x) : Climb up' id path := by
  induction h with
  | @top id hnone => exact .top ((hsame id (List.mem_singleton_self id)).trans hnone)
  | @step id above path hsome _ ih =>
      refine .step ((hsame id List.mem_cons_self).trans hsome) (ih fun x hx => ?_)
      exact hsame x (List.mem_cons_of_mem _ hx)

/-- **A node may be moved to a place that does not lie below it**: with `child ∉ above`, the way up from `parent`
    avoids `child`, and every other way up that meets `child` goes on along `above`. -/
theorem exists_moved {up' : Nat → Option Nat} {id child parent : Nat} {path above : List Nat}
    (h : Climb up id path) (habove : Climb up parent above) (hnot : child ∉ above)
    (hchild : up' child = some parent) (hsame : ∀ x, x ≠ child → up' x = up x) :
    ∃ path', Climb up' id path' := by
  have habove' : Climb up' parent above :=
    habove.congr fun x hx => hsame x (fun heq => hnot (heq ▸ hx))
  have hmoved : Climb up' child (child :: above) := .step hchild habove'
  induction h with
  | @top id hnone =>
      by_cases hid : id = child
      · exact ⟨_, hid ▸ hmoved⟩
      · exact ⟨_, .top ((hsame id hid).trans hnone)⟩
  | @step id next path hsome _ ih =>
      by_cases hid : id = child
      · exact ⟨_, hid ▸ hmoved⟩
      · obtain ⟨path', hpath'⟩ := ih
        exact ⟨_, .step ((hsame id hid).trans hsome) hpath'⟩

end Climb

namespace Tree

/-! ## Links of a store -/

def kind? (tree : Tree) (id : Nat) : Option NodeKind :=
  (tree.get? id).map (·.kind)

def parent? (tree : Tree) (id : Nat) : Option Nat :=
  (tree.get? id).bind (·.parent)

def children (tree : Tree) (id : Nat) : List Nat :=
  ((tree.get? id).map (·.children)).getD []

/-- **A linked store**: `child ∈ children parent ↔ parent? child = some parent`, every child is listed once,
    literals list nothing, `0` has no parent, and every way up ends. -/
structure Linked (tree : Tree) : Prop where
  mem_children_iff : ∀ {parent child}, child ∈ tree.children parent ↔ tree.parent? child = some parent
  nodup : ∀ id, (tree.children id).Nodup
  literal : ∀ id value, tree.kind? id = some (.literal value) → tree.children id = []
  root : 0 < tree.size ∧ tree.parent? 0 = none
  climbs : ∀ id, ∃ path, Climb tree.parent? id path

variable {tree tree' : Tree}

theorem parent?_of_get? {id : Nat} {entry : Entry} (h : tree.get? id = some entry) :
    tree.parent? id = entry.parent := by
  rw [parent?, h, Option.bind_some]

theorem children_of_get? {id : Nat} {entry : Entry} (h : tree.get? id = some entry) :
    tree.children id = entry.children := by
  rw [children, h, Option.map_some, Option.getD_some]

theorem kind?_of_get? {id : Nat} {entry : Entry} (h : tree.get? id = some entry) :
    tree.kind? id = some entry.kind := by
  rw [kind?, h, Option.map_some]

theorem lt_size_of_parent? {id parent : Nat} (h : tree.parent? id = some parent) : id < tree.size := by
  obtain ⟨entry, hentry, _⟩ := Option.bind_eq_some_iff.mp h
  exact get?_lt_size hentry

theorem lt_size_of_mem_children {id child : Nat} (h : child ∈ tree.children id) : id < tree.size := by
  cases hget : tree.get? id with
  | none => simp [children, hget] at h
  | some entry => exact get?_lt_size hget

theorem Linked.parent_lt (hlinked : tree.Linked) {id parent : Nat} (h : tree.parent? id = some parent) :
    parent < tree.size :=
  lt_size_of_mem_children (hlinked.mem_children_iff.mpr h)

theorem Linked.child_lt (hlinked : tree.Linked) {id child : Nat} (h : child ∈ tree.children id) :
    child < tree.size :=
  lt_size_of_parent? (hlinked.mem_children_iff.mp h)

/-! ## The search through the ancestors is complete -/

/-- `ancestorsFrom fuel id` is the path of `Climb` if `fuel` is at least its length. -/
theorem ancestorsFrom_eq {fuel id : Nat} {path : List Nat} (h : Climb tree.parent? id path)
    (hfuel : path.length ≤ fuel) : tree.ancestorsFrom fuel id = path := by
  induction h generalizing fuel with
  | top hnone =>
      cases fuel with
      | zero => simp at hfuel
      | succ fuel =>
          rw [parent?] at hnone
          rw [ancestorsFrom, hnone]
  | step hsome _ ih =>
      cases fuel with
      | zero => simp at hfuel
      | succ fuel =>
          rw [parent?] at hsome
          rw [ancestorsFrom, hsome]
          exact congrArg _ (ih (by simpa using hfuel))

/-- A way up inside the store is no longer than the store, as it has no duplicates (`Climb.nodup`). -/
theorem Linked.climb_length_le (hlinked : tree.Linked) {id : Nat} {path : List Nat}
    (hid : id < tree.size) (h : Climb tree.parent? id path) : path.length ≤ tree.size := by
  have hlt : ∀ x ∈ path, x < tree.size :=
    h.forall_mem hid fun x above hx => hlinked.parent_lt hx
  have hsub : path ⊆ List.range tree.size := fun x hx => List.mem_range.mpr (hlt x hx)
  calc path.length
      ≤ (List.range tree.size).length := (h.nodup.subperm hsub).length_le
    _ = tree.size := List.length_range

/-- **`ancestors id` is the whole way up from `id`**, for which `tree.size` steps are enough. -/
theorem Linked.climb_ancestors (hlinked : tree.Linked) {id : Nat} (hid : id < tree.size) :
    Climb tree.parent? id (tree.ancestors id) := by
  obtain ⟨path, hpath⟩ := hlinked.climbs id
  rw [ancestors, ancestorsFrom_eq hpath (hlinked.climb_length_le hid hpath)]
  exact hpath

/-! ## Links that change -/

/-- Detaching the nodes in `gone`: they lose their parents, and the lists lose them. -/
theorem Linked.detach (hlinked : tree.Linked) (gone : List Nat) (hsize : tree'.size = tree.size)
    (hkind : ∀ id, tree'.kind? id = tree.kind? id)
    (hparent : ∀ id, tree'.parent? id = if id ∈ gone then none else tree.parent? id)
    (hchildren : ∀ id, tree'.children id = (tree.children id).filter (· ∉ gone)) : tree'.Linked where
  mem_children_iff := by
    intro parent child
    rw [hchildren, hparent, List.mem_filter, hlinked.mem_children_iff]
    by_cases hgone : child ∈ gone <;> simp [hgone]
  nodup := by
    intro id
    rw [hchildren]
    exact (hlinked.nodup id).sublist List.filter_sublist
  literal := by
    intro id value hliteral
    rw [hkind] at hliteral
    rw [hchildren, hlinked.literal id value hliteral, List.filter_nil]
  root := by
    rw [hsize, hparent]
    refine ⟨hlinked.root.1, ?_⟩
    split
    · rfl
    · exact hlinked.root.2
  climbs := by
    intro id
    obtain ⟨path, hpath⟩ := hlinked.climbs id
    refine hpath.exists_cut fun x => ?_
    rw [hparent]
    split
    · exact Or.inl rfl
    · exact Or.inr rfl

/-- Moving a node other than the root below a rule that does not lie below it. -/
theorem Linked.attach (hlinked : tree.Linked) {parent child : Nat} {name : String} {above : List Nat}
    (hroot : child ≠ 0) (hrule : tree.kind? parent = some (.rule name))
    (habove : Climb tree.parent? parent above) (hnot : child ∉ above) (hsize : tree'.size = tree.size)
    (hkind : ∀ id, tree'.kind? id = tree.kind? id)
    (hparent : ∀ id, tree'.parent? id = if id = child then some parent else tree.parent? id)
    (hchildren : ∀ id, tree'.children id
      = (tree.children id).filter (· != child) ++ if id = parent then [child] else []) :
    tree'.Linked where
  mem_children_iff := by
    intro p c
    rw [hchildren, hparent, List.mem_append, List.mem_filter, hlinked.mem_children_iff]
    by_cases hc : c = child <;> by_cases hp : p = parent <;> simp [hc, hp]
    exact fun h => hp h.symm
  nodup := by
    intro id
    rw [hchildren]
    have hold : ((tree.children id).filter (· != child)).Nodup :=
      (hlinked.nodup id).sublist List.filter_sublist
    refine List.nodup_append.mpr ⟨hold, ?_, ?_⟩
    · split
      · simp
      · exact List.nodup_nil
    · intro a ha b hb heq
      have hne : a ≠ child := by simpa using (List.mem_filter.mp ha).2
      split at hb
      · exact hne (heq.trans (List.mem_singleton.mp hb))
      · exact absurd hb List.not_mem_nil
  literal := by
    intro id value hliteral
    rw [hkind] at hliteral
    have hid : id ≠ parent := by
      rintro rfl
      cases hrule.symm.trans hliteral
    rw [hchildren, hlinked.literal id value hliteral, if_neg hid]
    rfl
  root := by
    rw [hsize, hparent, if_neg (Ne.symm hroot)]
    exact hlinked.root
  climbs := by
    intro id
    obtain ⟨path, hpath⟩ := hlinked.climbs id
    refine hpath.exists_moved habove hnot ?_ fun x hx => ?_
    · rw [hparent, if_pos rfl]
    · rw [hparent, if_neg hx]

/-! ## What updates do to the read-offs -/

/-- `bind f` after `update` is unchanged if `f (change e) = f e`; used with `f` a field of the entry. -/
theorem bind_get?_update {α : Type} {f : Entry → Option α} {change : Entry → Entry}
    (tree : Tree) (id x : Nat) (hf : ∀ e, f (change e) = f e) :
    ((tree.update id change).get? x).bind f = (tree.get? x).bind f := by
  rw [get?_update]
  split
  · rw [Option.bind_map]
    exact congrArg _ (funext hf)
  · rfl

@[simp] theorem kind?_update_parent (tree : Tree) (id : Nat) (above : Option Nat) (x : Nat) :
    (tree.update id fun e => { e with parent := above }).kind? x = tree.kind? x := by
  simp only [kind?, Option.map_eq_bind]
  exact bind_get?_update tree id x (by intro e; rfl)

@[simp] theorem children_update_parent (tree : Tree) (id : Nat) (above : Option Nat) (x : Nat) :
    (tree.update id fun e => { e with parent := above }).children x = tree.children x := by
  simp only [children, Option.map_eq_bind]
  rw [bind_get?_update tree id x]
  intro e
  rfl

@[simp] theorem kind?_update_children (tree : Tree) (id : Nat) (f : List Nat → List Nat) (x : Nat) :
    (tree.update id fun e => { e with children := f e.children }).kind? x = tree.kind? x := by
  simp only [kind?, Option.map_eq_bind]
  exact bind_get?_update tree id x (by intro e; rfl)

@[simp] theorem parent?_update_children (tree : Tree) (id : Nat) (f : List Nat → List Nat) (x : Nat) :
    (tree.update id fun e => { e with children := f e.children }).parent? x = tree.parent? x :=
  bind_get?_update tree id x (by intro e; rfl)

theorem get?_update_of_lt {id : Nat} (hid : id < tree.size) (change : Entry → Entry) :
    ∃ entry, tree.get? id = some entry ∧ (tree.update id change).get? id = some (change entry) := by
  refine ⟨_, Array.getElem?_eq_getElem hid, ?_⟩
  rw [get?_update, if_pos rfl, get?, Array.getElem?_eq_getElem hid, Option.map_some]

theorem parent?_update_parent {id : Nat} (hid : id < tree.size) (above : Option Nat) (x : Nat) :
    (tree.update id fun e => { e with parent := above }).parent? x
      = if x = id then above else tree.parent? x := by
  by_cases hx : x = id
  · subst hx
    obtain ⟨entry, _, hupdated⟩ := get?_update_of_lt hid fun e => { e with parent := above }
    rw [if_pos rfl, parent?_of_get? hupdated]
  · rw [if_neg hx, parent?, parent?, get?_update, if_neg (Ne.symm hx)]

theorem children_update_children {id : Nat} (hid : id < tree.size) (f : List Nat → List Nat) (x : Nat) :
    (tree.update id fun e => { e with children := f e.children }).children x
      = if x = id then f (tree.children x) else tree.children x := by
  by_cases hx : x = id
  · subst hx
    obtain ⟨entry, hentry, hupdated⟩ :=
      get?_update_of_lt hid fun e => { e with children := f e.children }
    rw [if_pos rfl, children_of_get? hupdated, children_of_get? hentry]
  · rw [if_neg hx, children, children, get?_update, if_neg (Ne.symm hx)]

/-! ## What the edits do to the links -/

theorem get?_create (tree : Tree) (kind : NodeKind) (x : Nat) :
    (tree.create kind).2.get? x = if x = tree.size then some { kind } else tree.get? x :=
  get?_push tree { kind } x

/-- A created node has no parent, which is also what `parent?` answers where there is no node. -/
theorem parent?_create (tree : Tree) (kind : NodeKind) (x : Nat) :
    (tree.create kind).2.parent? x = tree.parent? x := by
  rw [parent?, parent?, get?_create]
  split
  · subst x
    rw [get?_size]
    rfl
  · rfl

theorem children_create (tree : Tree) (kind : NodeKind) (x : Nat) :
    (tree.create kind).2.children x = tree.children x := by
  rw [children, children, get?_create]
  split
  · subst x
    rw [get?_size]
    rfl
  · rfl

theorem Linked.create (hlinked : tree.Linked) (kind : NodeKind) : (tree.create kind).2.Linked where
  mem_children_iff := by
    intro parent child
    rw [children_create, parent?_create]
    exact hlinked.mem_children_iff
  nodup := by
    intro id
    rw [children_create]
    exact hlinked.nodup id
  literal := by
    intro id value hliteral
    rw [children_create]
    by_cases hid : id = tree.size
    · rw [hid, children, get?_size]
      rfl
    · refine hlinked.literal id value ?_
      rw [kind?, get?_create, if_neg hid] at hliteral
      exact hliteral
  root := by
    rw [parent?_create]
    refine ⟨?_, hlinked.root.2⟩
    show 0 < (tree.nodes.push _).size
    rw [Array.size_push]
    exact Nat.succ_pos _
  climbs := by
    intro id
    obtain ⟨path, hpath⟩ := hlinked.climbs id
    exact ⟨path, hpath.congr fun x _ => parent?_create tree kind x⟩

/-- **When `addChild` succeeds**, and the store it leaves, written as its updates. -/
theorem addChild_eq_ok {parent child : Nat} (h : tree.addChild parent child = .ok tree') :
    parent < tree.size ∧ child < tree.size ∧ (∃ name, tree.kind? parent = some (.rule name)) ∧
      child ≠ 0 ∧ child ∉ tree.ancestors parent ∧
      tree' = ((tree.unlink child).update child fun e => { e with parent := some parent }).update parent
        fun e => { e with children := e.children ++ [child] } := by
  rw [addChild_eq] at h
  cases habove : tree.get? parent with
  | none => simp [habove] at h
  | some above =>
      cases hbelow : tree.get? child with
      | none => simp [habove, hbelow] at h
      | some below =>
          simp only [habove, hbelow] at h
          split at h
          · cases h
          · rename_i hrule
            split at h
            · cases h
            · rename_i hcycle
              cases h
              simp only [Bool.or_eq_true, decide_eq_true_eq, List.contains_iff_mem, not_or] at hcycle
              refine ⟨get?_lt_size habove, get?_lt_size hbelow, ?_, hcycle.1, hcycle.2, rfl⟩
              rw [kind?_of_get? habove]
              cases hkind : above.kind with
              | rule name => exact ⟨name, rfl⟩
              | literal value => simp [hkind, NodeKind.isLiteral, NodeKind.literal?] at hrule

@[simp] theorem size_unlink (tree : Tree) (child : Nat) : (tree.unlink child).size = tree.size := by
  unfold unlink
  split
  · exact size_update _ _ _
  · rfl

@[simp] theorem kind?_unlink (tree : Tree) (child x : Nat) :
    (tree.unlink child).kind? x = tree.kind? x := by
  unfold unlink
  split
  · exact kind?_update_children _ _ _ _
  · rfl

@[simp] theorem parent?_unlink (tree : Tree) (child x : Nat) :
    (tree.unlink child).parent? x = tree.parent? x := by
  unfold unlink
  split
  · exact parent?_update_children _ _ _ _
  · rfl

/-- `unlink` edits one list, yet `filter (· != child)` describes all of them: no other list than that of the parent
    contains `child`. -/
theorem Linked.children_unlink (hlinked : tree.Linked) (child x : Nat) :
    (tree.unlink child).children x = (tree.children x).filter (· != child) := by
  have hother : tree.parent? child ≠ some x →
      (tree.children x).filter (· != child) = tree.children x := by
    intro hne
    refine List.filter_eq_self.mpr fun y hy => ?_
    have hyc : y ≠ child := by
      rintro rfl
      exact hne (hlinked.mem_children_iff.mp hy)
    simpa using hyc
  unfold unlink
  split
  · rename_i old hold
    rw [children_update_children (hlinked.parent_lt hold)]
    split
    · rfl
    · rename_i hx
      refine (hother ?_).symm
      intro hsome
      exact hx (Option.some.inj (hsome.symm.trans hold))
  · rename_i hnone
    refine (hother ?_).symm
    intro hsome
    cases hsome.symm.trans hnone

theorem Linked.addChild (hlinked : tree.Linked) {parent child : Nat}
    (h : tree.addChild parent child = .ok tree') : tree'.Linked := by
  obtain ⟨hparent, hchild, ⟨name, hrule⟩, hroot, hnot, rfl⟩ := addChild_eq_ok h
  refine hlinked.attach hroot hrule (hlinked.climb_ancestors hparent) hnot (by simp) ?_ ?_ ?_
  · intro id
    rw [kind?_update_children _ _ (· ++ [child]), kind?_update_parent, kind?_unlink]
  · intro id
    rw [parent?_update_children _ _ (· ++ [child]), parent?_update_parent (by simpa using hchild),
      parent?_unlink]
  · intro id
    rw [children_update_children (by simpa using hparent) (· ++ [child]), children_update_parent,
      hlinked.children_unlink]
    split
    · rfl
    · exact (List.append_nil _).symm

/-- **When `removeChild` succeeds**, and the store it leaves. -/
theorem removeChild_eq_ok {parent child : Nat} (h : tree.removeChild parent child = .ok tree') :
    child ∈ tree.children parent ∧
      tree' = (tree.update parent fun e => { e with children := e.children.erase child }).update child
        fun e => { e with parent := none } := by
  rw [removeChild_eq] at h
  cases habove : tree.get? parent with
  | none => simp [habove] at h
  | some above =>
      cases hbelow : tree.get? child with
      | none => simp [habove, hbelow] at h
      | some below =>
          simp only [habove, hbelow] at h
          split at h
          · rename_i hmem
            cases h
            rw [children_of_get? habove]
            exact ⟨List.contains_iff_mem.mp hmem, rfl⟩
          · cases h

theorem Linked.removeChild (hlinked : tree.Linked) {parent child : Nat}
    (h : tree.removeChild parent child = .ok tree') : tree'.Linked := by
  obtain ⟨hmem, rfl⟩ := removeChild_eq_ok h
  have hold : tree.parent? child = some parent := hlinked.mem_children_iff.mp hmem
  have hchild := hlinked.child_lt hmem
  have hparent := lt_size_of_mem_children hmem
  refine hlinked.detach [child] (by simp) ?_ ?_ ?_
  · intro id
    rw [kind?_update_parent, kind?_update_children _ _ (·.erase child)]
  · intro id
    rw [parent?_update_parent (by simpa using hchild), parent?_update_children _ _ (·.erase child)]
    simp
  · intro id
    rw [children_update_parent, children_update_children hparent (·.erase child)]
    split
    · rw [(hlinked.nodup id).erase_eq_filter]
      refine List.filter_congr fun x _ => ?_
      by_cases hx : x = child <;> simp [hx]
    · rename_i hid
      refine (List.filter_eq_self.mpr fun x hx => ?_).symm
      have hne : x ≠ child := by
        rintro rfl
        exact hid (Option.some.inj ((hlinked.mem_children_iff.mp hx).symm.trans hold))
      simpa using hne

/-- The loop of `removeAllChildren` sets `parent := none` at the numbers in `cleared` and changes nothing else. -/
theorem foldl_clearParent (cleared : List Nat) (tree : Tree) (h : ∀ c ∈ cleared, c < tree.size) :
    let result := cleared.foldl (fun t c => t.update c fun e => { e with parent := none }) tree
    result.size = tree.size ∧ (∀ x, result.kind? x = tree.kind? x) ∧
      (∀ x, result.children x = tree.children x) ∧
      ∀ x, result.parent? x = if x ∈ cleared then none else tree.parent? x := by
  induction cleared generalizing tree with
  | nil => exact ⟨rfl, fun _ => rfl, fun _ => rfl, fun _ => rfl⟩
  | cons c cleared ih =>
      have hc : c < tree.size := h c List.mem_cons_self
      obtain ⟨hsize, hkind, hchildren, hparent⟩ :=
        ih (tree.update c fun e => { e with parent := none }) fun x hx => by
          rw [size_update]
          exact h x (List.mem_cons_of_mem _ hx)
      refine ⟨hsize.trans (size_update _ _ _), fun x => ?_, fun x => ?_, fun x => ?_⟩
      · rw [List.foldl_cons, hkind, kind?_update_parent]
      · rw [List.foldl_cons, hchildren, children_update_parent]
      · rw [List.foldl_cons, hparent, parent?_update_parent hc]
        by_cases hx : x = c <;> simp [hx]

/-- **When `removeAllChildren` succeeds**, and the store it leaves. -/
theorem removeAllChildren_eq_ok {parent : Nat} (h : tree.removeAllChildren parent = .ok tree') :
    parent < tree.size ∧
      tree' = (tree.children parent).foldl (fun t c => t.update c fun e => { e with parent := none })
        (tree.update parent fun e => { e with children := [] }) := by
  rw [removeAllChildren_eq] at h
  cases habove : tree.get? parent with
  | none => simp [habove] at h
  | some above =>
      simp only [habove, Except.ok.injEq] at h
      rw [children_of_get? habove, h]
      exact ⟨get?_lt_size habove, rfl⟩

theorem Linked.removeAllChildren (hlinked : tree.Linked) {parent : Nat}
    (h : tree.removeAllChildren parent = .ok tree') : tree'.Linked := by
  obtain ⟨hparent, rfl⟩ := removeAllChildren_eq_ok h
  obtain ⟨hsize, hkind, hchildren, hparents⟩ := foldl_clearParent (tree.children parent)
    (tree.update parent fun e => { e with children := [] }) fun c hc => by
      rw [size_update]
      exact hlinked.child_lt hc
  refine hlinked.detach (tree.children parent) (hsize.trans (size_update _ _ _)) ?_ ?_ ?_
  · intro id
    rw [hkind, kind?_update_children _ _ fun _ => []]
  · intro id
    rw [hparents, parent?_update_children _ _ fun _ => []]
  · intro id
    rw [hchildren, children_update_children hparent fun _ => []]
    split
    · subst id
      exact (List.filter_eq_nil_iff.mpr fun x hx => by simpa using hx).symm
    · rename_i hid
      -- a node listed elsewhere is not among those that are detached
      refine (List.filter_eq_self.mpr fun x hx => ?_).symm
      have hnot : x ∉ tree.children parent := by
        intro hx'
        have hsame := (hlinked.mem_children_iff.mp hx).symm.trans (hlinked.mem_children_iff.mp hx')
        exact hid (Option.some.inj hsame)
      simpa using hnot

end Tree

end PegTree
