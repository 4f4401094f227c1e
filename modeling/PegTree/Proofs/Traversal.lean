import PegTree.Proofs.EditEffects

/-!
# `Proofs.Traversal` — going down agrees with going up

Whoever asks for the leaves, the text or a rule below a node goes down the lists of children, with no record of what
has been visited. Parents are followed the other way. This module says that both see the same nodes, each once, in one
order.

* **Nothing is cut off** (`Linked.exists_view`). A view is built to a bounded depth. The bound is never reached: a
  level further down is a node more on the way up, and a way up fits into the store. So a view is `Faithful`, it shows
  at every node all the children that the store lists there.
* **What a view shows lies under its root** (`Faithful.mem_ids_iff`), and the other way round.
* **It shows nodes in pre-order** (`Faithful.pairwise_precedes`). `Precedes` says what that is in terms of the links
  alone: a node comes before what lies under it, and what lies under a child comes before what lies under a later
  child. This is a strict order (`Linked.precedes_asymm`), so it leaves no choice.

`reachable_traversals` puts it together for all stores that edits can reach.
-/

namespace PegTree

/-! ## Views by themselves -/

theorem Visit.literal?_isSome_iff {visit : Visit} :
    visit.literal?.isSome = true ↔ ∃ value, visit.entry.kind = .literal value := by
  unfold Visit.literal?
  cases visit.entry.kind with
  | rule name => simp [NodeKind.literal?]
  | literal value => simp [NodeKind.literal?]

theorem Visit.isRule_iff {visit : Visit} {name : String} :
    visit.isRule name = true ↔ visit.entry.kind = .rule name := by
  unfold Visit.isRule
  cases visit.entry.kind with
  | rule other => simp [NodeKind.rule?]
  | literal value => simp [NodeKind.rule?]

namespace Rose

def ids (view : Rose Visit) : List Nat :=
  view.preorder.map (·.id)

theorem text_eq_join (view : Rose Visit) :
    view.text = String.join (view.leaves.map fun leaf => leaf.entry.kind.value) := by
  have hvalues : ∀ leaf ∈ view.leaves, leaf.literal? = some leaf.entry.kind.value := by
    intro leaf hleaf
    obtain ⟨value, hvalue⟩ := Visit.literal?_isSome_iff.mp (List.mem_filter.mp hleaf).2
    rw [Visit.literal?, hvalue]
    rfl
  unfold text
  rw [List.filterMap_congr hvalues]
  exact congrArg String.join (congrFun List.filterMap_eq_map _)

/-- `leaves` of a rule is the concatenation of `leaves` of its children. -/
theorem leaves_node {visit : Visit} {name : String} (hkind : visit.entry.kind = .rule name)
    (ts : List (Rose Visit)) : (Rose.node visit ts).leaves = ts.flatMap leaves := by
  have hrule : visit.literal?.isSome = false := by
    rw [Visit.literal?, hkind]
    rfl
  unfold leaves
  rw [preorder, List.filter_cons_of_neg (by simp [hrule]), preorderList_eq_flatMap, List.filter_flatMap]

/-- `text` of a rule is the concatenation of `text` of its children. -/
theorem text_node {visit : Visit} {name : String} (hkind : visit.entry.kind = .rule name)
    (ts : List (Rose Visit)) : (Rose.node visit ts).text = String.join (ts.map text) := by
  apply String.toList_inj.mp
  simp only [text, leaves_node hkind, String.toList_join, List.filterMap_flatMap, List.flatMap_assoc,
    List.flatMap_map]

end Rose

namespace Tree

variable {tree : Tree}

/-! ## Lying under a node -/

theorem Under.trans {x y z : Nat} (hxy : tree.Under x y) (hyz : tree.Under y z) : tree.Under x z :=
  Relation.ReflTransGen.trans hxy hyz

theorem under_of_parent? {x above : Nat} (h : tree.parent? x = some above) : tree.Under x above :=
  Relation.ReflTransGen.single h

/-- `Under x above` with `x ≠ above` goes through a child of `above`. -/
theorem Under.exists_child {x above : Nat} (h : tree.Under x above) (hne : x ≠ above) :
    ∃ child, tree.parent? child = some above ∧ tree.Under x child := by
  rcases h.cases_tail with heq | ⟨child, hunder, hparent⟩
  · exact absurd heq.symm hne
  · exact ⟨child, hparent, hunder⟩

theorem Linked.not_under_child (hlinked : tree.Linked) {child parent : Nat}
    (hparent : tree.parent? child = some parent) : ¬ tree.Under parent child := by
  intro hunder
  obtain ⟨path, hpath⟩ := hlinked.climbs parent
  have hmem : child ∈ path := (mem_climb_iff hpath).mpr hunder
  have hnodup := (Climb.step hparent hpath).nodup
  exact (List.nodup_cons.mp hnodup).1 hmem

theorem Linked.under_antisymm (hlinked : tree.Linked) {x y : Nat} (hxy : tree.Under x y)
    (hyx : tree.Under y x) : x = y := by
  rcases hxy.cases_head with heq | ⟨above, hparent, habove⟩
  · exact heq
  · exact absurd (Under.trans habove hyx) (hlinked.not_under_child hparent)

/-- The nodes above `x` are a chain for `Under`. -/
theorem Under.total {x y z : Nat} (hxy : tree.Under x y) (hxz : tree.Under x z) :
    tree.Under y z ∨ tree.Under z y := by
  refine Relation.ReflTransGen.total_of_right_unique ?_ hxy hxz
  intro a b c hab hac
  exact Option.some.inj (hab.symm.trans hac)

/-- **Nothing lies under two children of a node.** -/
theorem Linked.child_unique (hlinked : tree.Linked) {x parent c d : Nat}
    (hc : tree.parent? c = some parent) (hd : tree.parent? d = some parent) (hxc : tree.Under x c)
    (hxd : tree.Under x d) : c = d := by
  have hbelow : ∀ a b, tree.parent? a = some parent → tree.parent? b = some parent → tree.Under a b → a = b := by
    intro a b ha hb hunder
    rcases hunder.cases_head with heq | ⟨above, hparent, habove⟩
    · exact heq
    · cases hparent.symm.trans ha
      exact absurd habove (hlinked.not_under_child hb)
  rcases Under.total hxc hxd with hunder | hunder
  · exact hbelow c d hc hd hunder
  · exact (hbelow d c hd hc hunder).symm

/-! ## Pre-order -/

/-- **`x` comes before `y` in pre-order**: `y` is strictly `Under` `x`, or `x` and `y` lie under two children `c`
    and `d` of one node, which lists `c` before `d`. -/
inductive Precedes (tree : Tree) (x y : Nat) : Prop where
  | above (hunder : tree.Under y x) (hne : y ≠ x) : Precedes tree x y
  | beside {parent c d : Nat} (hlisted : [c, d].Sublist (tree.children parent)) (hx : tree.Under x c)
      (hy : tree.Under y d) : Precedes tree x y

theorem Linked.listed_pair (hlinked : tree.Linked) {parent c d : Nat}
    (h : [c, d].Sublist (tree.children parent)) :
    tree.parent? c = some parent ∧ tree.parent? d = some parent ∧ c ≠ d := by
  have hc : c ∈ tree.children parent := h.subset List.mem_cons_self
  have hd : d ∈ tree.children parent := h.subset (List.mem_cons_of_mem _ List.mem_cons_self)
  have hnodup : [c, d].Nodup := (hlinked.nodup parent).sublist h
  refine ⟨hlinked.mem_children_iff.mp hc, hlinked.mem_children_iff.mp hd, ?_⟩
  simpa using hnodup

/-- A list without repetition has two members in one order only. -/
theorem not_listed_both {xs : List Nat} {c d : Nat} (hnodup : xs.Nodup) (hcd : [c, d].Sublist xs)
    (hdc : [d, c].Sublist xs) : False := by
  induction xs with
  | nil => cases hcd
  | cons x xs ih =>
      obtain ⟨hx, hnodup⟩ := List.nodup_cons.mp hnodup
      cases hcd with
      | cons _ hcd =>
          cases hdc with
          | cons _ hdc => exact ih hnodup hcd hdc
          | cons_cons _ _ => exact hx (hcd.subset (List.mem_cons_of_mem _ List.mem_cons_self))
      | cons_cons _ hd =>
          cases hdc with
          | cons _ hdc => exact hx (hdc.subset (List.mem_cons_of_mem _ List.mem_cons_self))
          | cons_cons _ _ => exact hx (hd.subset List.mem_cons_self)

/-- Let `x` and `y` lie under two children of `parent`. A node `z` under `parent` that both lie under is
    `parent`. -/
theorem Linked.not_under_both (hlinked : tree.Linked) {parent c d x y z : Nat}
    (h : [c, d].Sublist (tree.children parent)) (hx : tree.Under x c) (hy : tree.Under y d)
    (hxz : tree.Under x z) (hyz : tree.Under y z) (hz : tree.Under z parent) : z = parent := by
  obtain ⟨hc, hd, hne⟩ := hlinked.listed_pair h
  by_contra hother
  obtain ⟨e, he, hze⟩ := Under.exists_child hz hother
  have hce : c = e := hlinked.child_unique hc he hx (Under.trans hxz hze)
  have hde : d = e := hlinked.child_unique hd he hy (Under.trans hyz hze)
  exact hne (hce.trans hde.symm)

/-- **Pre-order is strict**: `Precedes` holds in at most one direction. -/
theorem Linked.precedes_asymm (hlinked : tree.Linked) {x y : Nat} (hxy : tree.Precedes x y) :
    ¬ tree.Precedes y x := by
  -- a node does not lie beside what lies under it
  have hmixed : ∀ {x y parent c d : Nat}, tree.Under y x → [c, d].Sublist (tree.children parent) →
      (tree.Under y c ∧ tree.Under x d ∨ tree.Under x c ∧ tree.Under y d) → False := by
    intro x y parent c d hunder hlisted hsides
    obtain ⟨hc, hd, hne⟩ := hlinked.listed_pair hlisted
    rcases hsides with ⟨hyc, hxd⟩ | ⟨hxc, hyd⟩
    · exact hne (hlinked.child_unique hc hd hyc (Under.trans hunder hxd))
    · exact hne (hlinked.child_unique hc hd (Under.trans hunder hxc) hyd)
  intro hyx
  cases hxy with
  | above hunder hne =>
      cases hyx with
      | above hunder' _ => exact hne (hlinked.under_antisymm hunder hunder')
      | beside hlisted hy hx => exact hmixed hunder hlisted (Or.inl ⟨hy, hx⟩)
  | @beside p c d hlisted hx hy =>
      cases hyx with
      | above hunder _ => exact hmixed hunder hlisted (Or.inl ⟨hx, hy⟩)
      | @beside p' c' d' hlisted' hy' hx' =>
          obtain ⟨hc, hd, hne⟩ := hlinked.listed_pair hlisted
          obtain ⟨hc', hd', -⟩ := hlinked.listed_pair hlisted'
          have hxp : tree.Under x p := Under.trans hx (under_of_parent? hc)
          have hyp : tree.Under y p := Under.trans hy (under_of_parent? hd)
          have hxp' : tree.Under x p' := Under.trans hx' (under_of_parent? hd')
          have hyp' : tree.Under y p' := Under.trans hy' (under_of_parent? hc')
          -- both pairs of siblings have one parent
          have hparents : p = p' := by
            rcases Under.total hxp hxp' with hunder | hunder
            · exact hlinked.not_under_both hlisted' hy' hx' hyp hxp hunder
            · exact (hlinked.not_under_both hlisted hx hy hxp' hyp' hunder).symm
          subst hparents
          have hcd' : c = d' := hlinked.child_unique hc hd' hx hx'
          have hdc' : d = c' := hlinked.child_unique hd hc' hy hy'
          subst hcd' hdc'
          exact not_listed_both (hlinked.nodup p) hlisted hlisted'

/-! ## Faithful views -/

/-- **A faithful view of the store**: at every `Rose.Sub` of it the entry is the one that the store has at its id,
    and the ids right below are the children that the entry lists, in order. -/
def Faithful (tree : Tree) (view : Rose Visit) : Prop :=
  ∀ s, Rose.Sub s view →
    tree.get? s.value.id = some s.value.entry ∧ s.children.map (·.value.id) = s.value.entry.children

theorem Faithful.sub {s view : Rose Visit} (h : tree.Faithful view) (hsub : Rose.Sub s view) :
    tree.Faithful s :=
  fun r hr => h r (hr.trans hsub)

theorem Faithful.get? {view : Rose Visit} (h : tree.Faithful view) {visit : Visit}
    (hvisit : visit ∈ view.preorder) : tree.get? visit.id = some visit.entry := by
  obtain ⟨s, hsub, rfl⟩ := Rose.exists_sub view hvisit
  exact (h s hsub).1

theorem Faithful.map_children {view : Rose Visit} (h : tree.Faithful view) :
    view.children.map (·.value.id) = tree.children view.value.id := by
  obtain ⟨hget, hchildren⟩ := h view .refl
  rw [hchildren, children_of_get? hget]

/-- `parent?` of what a faithful view shows right below its root is the id of the root. -/
theorem Faithful.parent?_child (hlinked : tree.Linked) {view t : Rose Visit} (h : tree.Faithful view)
    (ht : t ∈ view.children) : tree.parent? t.value.id = some view.value.id := by
  refine hlinked.mem_children_iff.mp ?_
  rw [← h.map_children]
  exact List.mem_map_of_mem ht

theorem filterMap_views {f : Nat → Option (Rose Visit)} {P : Rose Visit → Prop} {ids : List Nat}
    (h : ∀ id ∈ ids, ∃ view, f id = some view ∧ view.value.id = id ∧ P view) :
    (ids.filterMap f).map (·.value.id) = ids ∧ ∀ view ∈ ids.filterMap f, P view := by
  induction ids with
  | nil => exact ⟨rfl, fun _ hview => absurd hview List.not_mem_nil⟩
  | cons id ids ih =>
      obtain ⟨first, hfirst, hid, hP⟩ := h id List.mem_cons_self
      obtain ⟨hids, hrest⟩ := ih fun x hx => h x (List.mem_cons_of_mem _ hx)
      rw [List.filterMap_cons_some hfirst, List.map_cons, hids, hid]
      refine ⟨rfl, ?_⟩
      intro view hview
      rcases List.mem_cons.mp hview with rfl | hview
      · exact hP
      · exact hrest view hview

/-- **Going down does not reach its bound.** `tree.size < fuel + path.length` holds at every level alike, as one
    level down is one node more on the way up. -/
theorem Linked.exists_viewFrom (hlinked : tree.Linked) {fuel id : Nat} {path : List Nat} (hid : id < tree.size)
    (hpath : Climb tree.parent? id path) (hfuel : tree.size < fuel + path.length) :
    ∃ view, tree.viewFrom fuel id = some view ∧ view.value.id = id ∧ tree.Faithful view := by
  induction fuel generalizing id path with
  | zero =>
      have hlength := hlinked.climb_length_le hid hpath
      omega
  | succ fuel ih =>
      obtain ⟨entry, hentry⟩ := get?_eq_some hid
      have hbelow : ∀ c ∈ entry.children,
          ∃ view, tree.viewFrom fuel c = some view ∧ view.value.id = c ∧ tree.Faithful view := by
        intro c hc
        have hparent : tree.parent? c = some id := (hlinked.mem_children_of_get? hentry).mp hc
        refine ih (lt_size_of_parent? hparent) (.step hparent hpath) ?_
        rw [List.length_cons]
        omega
      obtain ⟨hids, hviews⟩ := filterMap_views hbelow
      refine ⟨.node ⟨id, entry⟩ (entry.children.filterMap (tree.viewFrom fuel)), ?_, rfl, ?_⟩
      · rw [viewFrom, hentry, Option.map_some]
      · intro s hs
        cases hs with
        | refl => exact ⟨hentry, hids⟩
        | child ht hsub => exact hviews _ ht s hsub

/-- **Every node has a view, and nothing is cut off in it.** -/
theorem Linked.exists_view (hlinked : tree.Linked) {id : Nat} (hid : id < tree.size) :
    ∃ view, tree.view? id = some view ∧ view.value.id = id ∧ tree.Faithful view := by
  obtain ⟨path, hpath⟩ := hlinked.climbs id
  refine hlinked.exists_viewFrom hid hpath ?_
  cases hpath <;> simp

/-- `map f` is injective on lists on whose members `f` is. -/
theorem map_inj_on {α β : Type} {f : α → β} {xs ys : List α} (h : xs.map f = ys.map f)
    (hinj : ∀ x ∈ xs, ∀ y ∈ ys, f x = f y → x = y) : xs = ys := by
  induction xs generalizing ys with
  | nil => exact (List.map_eq_nil_iff.mp h.symm).symm
  | cons x xs ih =>
      cases ys with
      | nil => cases h
      | cons y ys =>
          obtain ⟨hhead, htail⟩ := List.cons.inj h
          have hxy := hinj x List.mem_cons_self y List.mem_cons_self hhead
          have hrest := ih htail fun a ha b hb => hinj a (List.mem_cons_of_mem _ ha) b (List.mem_cons_of_mem _ hb)
          rw [hxy, hrest]

/-- There is one faithful view of an id. -/
theorem Faithful.unique {s t : Rose Visit} (hs : tree.Faithful s) (ht : tree.Faithful t)
    (hid : s.value.id = t.value.id) : s = t := by
  induction s using Rose.inductionOn generalizing t with
  | node v ts ih =>
      obtain ⟨w, us⟩ := t
      have hentry : v.entry = w.entry := by
        have hv := (hs _ .refl).1
        rw [show Rose.value (.node v ts) = v from rfl, show v.id = w.id from hid] at hv
        exact Option.some.inj (hv.symm.trans (ht _ .refl).1)
      have hvisit : v = w := by
        obtain ⟨id, entry⟩ := v
        cases hid
        cases hentry
        rfl
      have hids : ts.map (·.value.id) = us.map (·.value.id) := by
        have hts := hs.map_children
        have hus := ht.map_children
        rw [← hid] at hus
        exact hts.trans hus.symm
      have hchildren : ts = us := by
        refine map_inj_on hids fun x hx y hy hxy => ?_
        exact ih x hx (hs.sub (.child hx .refl)) (ht.sub (.child hy .refl)) hxy
      rw [hvisit, hchildren]

/-- `view?` of the children of an id gives the children of its faithful view. -/
theorem Linked.map_view? (hlinked : tree.Linked) {view : Rose Visit} (h : tree.Faithful view) :
    (tree.children view.value.id).map tree.view? = view.children.map some := by
  rw [← h.map_children, List.map_map]
  refine List.map_congr_left fun t ht => ?_
  have hlt := lt_size_of_parent? (h.parent?_child hlinked ht)
  obtain ⟨shown, hshown, hid, hfaithful⟩ := hlinked.exists_view hlt
  have hsub : Rose.Sub t view := Rose.Sub.refl.of_mem ht
  rw [Function.comp_apply, hshown, hfaithful.unique (h.sub hsub) hid]

/-! ## What a view shows, and in which order -/

theorem Faithful.under (hlinked : tree.Linked) {view : Rose Visit} (h : tree.Faithful view) {visit : Visit}
    (hvisit : visit ∈ view.preorder) : tree.Under visit.id view.value.id := by
  induction view using Rose.inductionOn with
  | node v ts ih =>
      rcases List.mem_cons.mp hvisit with rfl | hbelow
      · exact .refl
      · obtain ⟨t, ht, hmem⟩ := Rose.mem_preorderList_iff.mp hbelow
        have hunder := ih t ht (h.sub (.child ht .refl)) hmem
        exact Under.trans hunder (under_of_parent? (h.parent?_child hlinked ht))

/-- **A view shows exactly what lies under its root**: `x ∈ view.ids ↔ Under x view.value.id`. -/
theorem Faithful.mem_ids_iff (hlinked : tree.Linked) {view : Rose Visit} (h : tree.Faithful view) {x : Nat} :
    x ∈ view.ids ↔ tree.Under x view.value.id := by
  constructor
  · intro hx
    obtain ⟨visit, hvisit, rfl⟩ := List.mem_map.mp hx
    exact h.under hlinked hvisit
  · intro hunder
    -- going up from `x` to the root, each node is shown if its parent is
    induction hunder using Relation.ReflTransGen.head_induction_on with
    | refl => exact List.mem_map_of_mem (Rose.value_mem_preorder view)
    | head hparent _ ih =>
        obtain ⟨visit, hvisit, rfl⟩ := List.mem_map.mp ih
        obtain ⟨s, hsub, rfl⟩ := Rose.exists_sub view hvisit
        have hmem := hlinked.mem_children_iff.mpr hparent
        rw [← (h.sub hsub).map_children] at hmem
        obtain ⟨t, ht, rfl⟩ := List.mem_map.mp hmem
        exact List.mem_map_of_mem (hsub.of_mem ht).value_mem

theorem Faithful.mem_below_iff (hlinked : tree.Linked) {view : Rose Visit} (h : tree.Faithful view) {x : Nat} :
    x ∈ (Rose.preorderList view.children).map (·.id) ↔ tree.Under x view.value.id ∧ x ≠ view.value.id := by
  constructor
  · intro hx
    obtain ⟨visit, hvisit, rfl⟩ := List.mem_map.mp hx
    obtain ⟨t, ht, hmem⟩ := Rose.mem_preorderList_iff.mp hvisit
    have hparent := h.parent?_child hlinked ht
    have hunder := (h.sub (Rose.Sub.refl.of_mem ht)).under hlinked hmem
    refine ⟨Under.trans hunder (under_of_parent? hparent), fun heq => ?_⟩
    rw [heq] at hunder
    exact hlinked.not_under_child hparent hunder
  · rintro ⟨hunder, hne⟩
    have hx := (h.mem_ids_iff hlinked).mpr hunder
    obtain ⟨v, ts⟩ := view
    rcases List.mem_cons.mp hx with heq | hbelow
    · exact absurd heq hne
    · exact hbelow

/-- **A view shows nodes in pre-order**: its ids are pairwise `Precedes`. -/
theorem Faithful.pairwise_precedes (hlinked : tree.Linked) {view : Rose Visit} (h : tree.Faithful view) :
    view.ids.Pairwise tree.Precedes := by
  induction view using Rose.inductionOn with
  | node v ts ih =>
      have hroot : ∀ x ∈ (Rose.preorderList ts).map (·.id), tree.Precedes v.id x := by
        intro x hx
        obtain ⟨hunder, hne⟩ := (h.mem_below_iff hlinked).mp hx
        exact .above hunder hne
      have hinside : ∀ t ∈ ts, t.ids.Pairwise tree.Precedes :=
        fun t ht => ih t ht (h.sub (.child ht .refl))
      have hbetween : ts.Pairwise fun t u => ∀ x ∈ t.ids, ∀ y ∈ u.ids, tree.Precedes x y := by
        refine List.pairwise_iff_forall_sublist.mpr fun {t u} hpair x hx y hy => ?_
        have ht : t ∈ ts := hpair.subset List.mem_cons_self
        have hu : u ∈ ts := hpair.subset (List.mem_cons_of_mem _ List.mem_cons_self)
        have hlisted : [t.value.id, u.value.id].Sublist (tree.children v.id) := by
          have hchildren := h.map_children
          exact hchildren ▸ hpair.map fun s : Rose Visit => s.value.id
        exact .beside hlisted (((h.sub (.child ht .refl)).mem_ids_iff hlinked).mp hx)
          (((h.sub (.child hu .refl)).mem_ids_iff hlinked).mp hy)
      have hflat : (Rose.preorderList ts).map (·.id) = ts.flatMap Rose.ids := by
        rw [Rose.preorderList_eq_flatMap, List.map_flatMap]
        rfl
      show (v.id :: (Rose.preorderList ts).map (·.id)).Pairwise tree.Precedes
      refine List.pairwise_cons.mpr ⟨hroot, ?_⟩
      rw [hflat]
      exact List.pairwise_flatMap.mpr ⟨hinside, hbetween⟩

theorem Linked.nodup_of_precedes (hlinked : tree.Linked) {xs : List Nat} (h : xs.Pairwise tree.Precedes) :
    xs.Nodup := by
  refine List.Pairwise.imp ?_ h
  rintro x y hxy rfl
  exact hlinked.precedes_asymm hxy hxy

/-! ## Leaves -/

/-- **The leaves of a view are the literals `Under` its root.** -/
theorem Faithful.mem_leaves_iff (hlinked : tree.Linked) {view : Rose Visit} (h : tree.Faithful view) {x : Nat} :
    x ∈ view.leaves.map (·.id) ↔
      tree.Under x view.value.id ∧ ∃ value, tree.kind? x = some (.literal value) := by
  rw [← h.mem_ids_iff hlinked]
  constructor
  · intro hx
    obtain ⟨visit, hvisit, rfl⟩ := List.mem_map.mp hx
    obtain ⟨hshown, hliteral⟩ := List.mem_filter.mp hvisit
    obtain ⟨value, hvalue⟩ := Visit.literal?_isSome_iff.mp hliteral
    refine ⟨List.mem_map_of_mem hshown, value, ?_⟩
    rw [kind?_of_get? (h.get? hshown), hvalue]
  · rintro ⟨hx, value, hvalue⟩
    obtain ⟨visit, hshown, rfl⟩ := List.mem_map.mp hx
    rw [kind?_of_get? (h.get? hshown)] at hvalue
    have hliteral := Visit.literal?_isSome_iff.mpr ⟨value, Option.some.inj hvalue⟩
    exact List.mem_map_of_mem (List.mem_filter.mpr ⟨hshown, hliteral⟩)

theorem Faithful.pairwise_leaves (hlinked : tree.Linked) {view : Rose Visit} (h : tree.Faithful view) :
    (view.leaves.map (·.id)).Pairwise tree.Precedes := by
  have hsublist : (view.leaves.map (·.id)).Sublist view.ids := List.filter_sublist.map _
  exact (h.pairwise_precedes hlinked).sublist hsublist

/-! ## The first rule below a node -/

/-- `x` is a match of the rule `name` strictly `Under` `id`. -/
def RuleBelow (tree : Tree) (name : String) (id x : Nat) : Prop :=
  tree.Under x id ∧ x ≠ id ∧ tree.kind? x = some (.rule name)

theorem Faithful.ruleBelow_iff (hlinked : tree.Linked) {view : Rose Visit} (h : tree.Faithful view)
    {name : String} {x : Nat} :
    tree.RuleBelow name view.value.id x ↔
      ∃ visit ∈ Rose.preorderList view.children, visit.id = x ∧ visit.isRule name = true := by
  have hget : ∀ visit ∈ Rose.preorderList view.children, tree.get? visit.id = some visit.entry := by
    intro visit hvisit
    obtain ⟨v, ts⟩ := view
    exact h.get? (List.mem_cons_of_mem _ hvisit)
  constructor
  · rintro ⟨hunder, hne, hkind⟩
    obtain ⟨visit, hvisit, rfl⟩ := List.mem_map.mp ((h.mem_below_iff hlinked).mpr ⟨hunder, hne⟩)
    rw [kind?_of_get? (hget visit hvisit)] at hkind
    exact ⟨visit, hvisit, rfl, Visit.isRule_iff.mpr (Option.some.inj hkind)⟩
  · rintro ⟨visit, hvisit, rfl, hrule⟩
    obtain ⟨hunder, hne⟩ := (h.mem_below_iff hlinked).mp (List.mem_map_of_mem hvisit)
    refine ⟨hunder, hne, ?_⟩
    rw [kind?_of_get? (hget visit hvisit), Visit.isRule_iff.mp hrule]

/-- **`findRule?` gives `none` only if no `x` is `RuleBelow`.** -/
theorem Faithful.findRule?_eq_none_iff (hlinked : tree.Linked) {view : Rose Visit} (h : tree.Faithful view)
    {name : String} : view.findRule? name = none ↔ ¬ ∃ x, tree.RuleBelow name view.value.id x := by
  unfold Rose.findRule?
  rw [List.find?_eq_none]
  constructor
  · rintro hnone ⟨x, hx⟩
    obtain ⟨visit, hvisit, -, hrule⟩ := (h.ruleBelow_iff hlinked).mp hx
    exact hnone visit hvisit hrule
  · intro hnone visit hvisit hrule
    exact hnone ⟨visit.id, (h.ruleBelow_iff hlinked).mpr ⟨visit, hvisit, rfl, hrule⟩⟩

/-- What `findRule?` finds is `RuleBelow`, and `Precedes` every other. -/
theorem Faithful.first_of_findRule? (hlinked : tree.Linked) {view : Rose Visit} (h : tree.Faithful view)
    {name : String} {visit : Visit} (hfound : view.findRule? name = some visit) :
    tree.RuleBelow name view.value.id visit.id ∧
      ∀ y, tree.RuleBelow name view.value.id y → y = visit.id ∨ tree.Precedes visit.id y := by
  obtain ⟨hrule, before, after, hsplit, hbefore⟩ := List.find?_eq_some_iff_append.mp hfound
  have hvisit : visit ∈ Rose.preorderList view.children := by
    rw [hsplit]
    exact List.mem_append_right _ List.mem_cons_self
  refine ⟨(h.ruleBelow_iff hlinked).mpr ⟨visit, hvisit, rfl, hrule⟩, ?_⟩
  intro y hy
  obtain ⟨other, hother, rfl, hother_rule⟩ := (h.ruleBelow_iff hlinked).mp hy
  have hordered : ((Rose.preorderList view.children).map (·.id)).Pairwise tree.Precedes := by
    have hpairwise := h.pairwise_precedes hlinked
    obtain ⟨v, ts⟩ := view
    exact hpairwise.of_cons
  rw [hsplit] at hother hordered
  rcases List.mem_append.mp hother with hearlier | hlater
  · have hnot := hbefore other hearlier
    rw [hother_rule] at hnot
    cases hnot
  · rcases List.mem_cons.mp hlater with rfl | hlater
    · exact Or.inl rfl
    · rw [List.map_append, List.map_cons] at hordered
      have hlast := (List.pairwise_append.mp hordered).2.1
      exact Or.inr (List.rel_of_pairwise_cons hlast (List.mem_map_of_mem hlater))

/-- **`findRule?` finds the first `RuleBelow` in pre-order**, and nothing else. -/
theorem Faithful.findRule?_eq_some_iff (hlinked : tree.Linked) {view : Rose Visit} (h : tree.Faithful view)
    {name : String} {x : Nat} :
    (view.findRule? name).map (·.id) = some x ↔
      tree.RuleBelow name view.value.id x ∧
        ∀ y, tree.RuleBelow name view.value.id y → y = x ∨ tree.Precedes x y := by
  constructor
  · intro hsome
    obtain ⟨visit, hfound, rfl⟩ := Option.map_eq_some_iff.mp hsome
    exact h.first_of_findRule? hlinked hfound
  · rintro ⟨hx, hfirst⟩
    cases hfound : view.findRule? name with
    | none => exact absurd ⟨x, hx⟩ ((h.findRule?_eq_none_iff hlinked).mp hfound)
    | some visit =>
        obtain ⟨hvisit, hfirst'⟩ := h.first_of_findRule? hlinked hfound
        rw [Option.map_some]
        -- both come first, and pre-order is strict
        rcases hfirst visit.id hvisit with heq | hprecedes
        · rw [heq]
        · rcases hfirst' x hx with heq | hprecedes'
          · rw [heq]
          · exact absurd hprecedes' (hlinked.precedes_asymm hprecedes)

/-! ## Every store that edits can reach -/

/-- **Going down agrees with going up, in every store that edits can reach.** `Precedes` is strict, and every node
    has a `Faithful` view. Its leaves are the literals `Under` the node, pairwise different and in the order
    `Precedes`; its text is the concatenation of their values, and for a rule of the texts of its children.
    `findRule? name` is the first `RuleBelow` in that order, and `none` if there is none. -/
theorem reachable_traversals (h : Reachable tree) {id : Nat} {entry : Entry} (hentry : tree.get? id = some entry) :
    (∀ x y, tree.Precedes x y → ¬ tree.Precedes y x) ∧
    ∃ view, tree.view? id = some view ∧ view.value = ⟨id, entry⟩ ∧ tree.Faithful view ∧
      (∀ x, x ∈ view.leaves.map (·.id) ↔
        tree.Under x id ∧ ∃ value, tree.kind? x = some (.literal value)) ∧
      (view.leaves.map (·.id)).Nodup ∧ (view.leaves.map (·.id)).Pairwise tree.Precedes ∧
      view.text = String.join (view.leaves.map fun leaf => leaf.entry.kind.value) ∧
      (entry.kind.isRule → ∃ below : List (Rose Visit), entry.children.map tree.view? = below.map some ∧
        view.text = String.join (below.map Rose.text)) ∧
      ∀ name,
        (∀ x, (view.findRule? name).map (·.id) = some x ↔
          tree.RuleBelow name id x ∧ ∀ y, tree.RuleBelow name id y → y = x ∨ tree.Precedes x y) ∧
        (view.findRule? name = none ↔ ¬ ∃ x, tree.RuleBelow name id x) := by
  have hlinked := h.linked
  refine ⟨fun x y hxy => hlinked.precedes_asymm hxy, ?_⟩
  obtain ⟨view, hview, rfl, hfaithful⟩ := hlinked.exists_view (get?_lt_size hentry)
  have hvalue : view.value = ⟨view.value.id, entry⟩ := by
    have hget := (hfaithful view .refl).1
    rw [hentry] at hget
    rw [Option.some.inj hget]
  have hleaves := hfaithful.pairwise_leaves hlinked
  refine ⟨view, hview, hvalue, hfaithful, fun x => hfaithful.mem_leaves_iff hlinked,
    hlinked.nodup_of_precedes hleaves, hleaves, view.text_eq_join, ?_, fun name => ⟨fun x => ?_, ?_⟩⟩
  · intro hrule
    have hbelow := hlinked.map_view? hfaithful
    rw [children_of_get? hentry] at hbelow
    refine ⟨view.children, hbelow, ?_⟩
    obtain ⟨v, ts⟩ := view
    obtain ⟨name, hname⟩ := Option.isSome_iff_exists.mp hrule
    have hkind : v.entry.kind = .rule name := by
      rw [show v = ⟨v.id, entry⟩ from hvalue]
      cases hkind : entry.kind with
      | rule other =>
          rw [hkind] at hname
          cases hname
          rfl
      | literal value =>
          rw [hkind] at hname
          cases hname
    exact Rose.text_node hkind ts
  · exact hfaithful.findRule?_eq_some_iff hlinked
  · exact hfaithful.findRule?_eq_none_iff hlinked

/-- A rule in a rule, with a leaf put in front of one that is older, and a leaf that is taken out again. -/
def shuffledHistory : List Edit :=
  [.createRule "args", .createLiteral "f", .createLiteral "x", .createRule "args", .createLiteral "y", .addChild 0 2,
    .addChild 0 5, .addChild 0 1, .addChild 1 4, .addChild 4 3, .addChild 0 2, .removeChild 0 5]

/-- In that store pre-order is not the order of the numbers. -/
theorem reachable_traversals_shuffled :
    ∃ store, Reachable store ∧ store.children 0 = [1, 2] ∧ store.Precedes 3 2 ∧
      (∀ y, store.RuleBelow "args" 0 y → y = 1 ∨ store.Precedes 1 y) ∧
      ∃ view, store.view? 0 = some view ∧ view.leaves.map (·.id) = [3, 2] ∧ view.text = "xf" := by
  let store := shuffledHistory.foldl apply (Tree.new "call")
  have hreachable : Reachable store := (Reachable.new "call").foldl_apply shuffledHistory
  have hroot : ∃ root, store.get? 0 = some root := ⟨_, rfl⟩
  obtain ⟨root, hroot⟩ := hroot
  obtain ⟨-, view, hview, -, -, -, -, hordered, -, -, hfind⟩ := reachable_traversals hreachable hroot
  have hshown : ∃ view, store.view? 0 = some view ∧ view.leaves.map (·.id) = [3, 2] ∧ view.text = "xf" ∧
      (view.findRule? "args").map (·.id) = some 1 := ⟨_, rfl, by decide, by decide, by decide⟩
  obtain ⟨view', hview', hleaves, htext, hfirst⟩ := hshown
  cases hview.symm.trans hview'
  rw [hleaves] at hordered
  exact ⟨store, hreachable, by decide, List.rel_of_pairwise_cons hordered List.mem_cons_self,
    (((hfind "args").1 1).mp hfirst).2, view, hview, hleaves, htext⟩

end Tree

end PegTree
