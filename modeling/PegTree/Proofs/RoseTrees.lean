import Mathlib.Data.List.Basic
import PegTree.Rose

/-!
# `Proofs.RoseTrees` — subtrees and paths

What holds of trees whatever stands at their nodes. One tree type serves matches, views of the store and
snapshots, so these facts serve them too.

* `Rose.inductionOn`, `Rose.forestInductionOn` — induction on trees, in which children are reached by membership, and
  induction on lists of trees, without a second statement about the other;
* `Rose.Sub` — the trees that stand somewhere in a tree;
* `Rose.Path` — the values on the way from the root down to some node;
* `Rose.map` and `Rose.preorder` against both.
-/

namespace PegTree.Rose

variable {α β γ : Type}

/-- **Induction on trees**: `motive (.node v ts)` from `motive t` for all `t ∈ ts`, with no second motive for
    lists. -/
@[elab_as_elim]
theorem inductionOn {motive : Rose α → Prop} (t : Rose α)
    (node : ∀ v ts, (∀ t ∈ ts, motive t) → motive (.node v ts)) : motive t := by
  refine @Rose.rec α motive (fun ts => ∀ t ∈ ts, motive t) node ?_ ?_ t
  · intro s hs
    exact absurd hs List.not_mem_nil
  · intro t ts ht hts s hs
    rcases List.mem_cons.mp hs with rfl | hs
    · exact ht
    · exact hts s hs

/-- **Induction on lists of trees**: `motive (t :: ts)` from `motive t.children` and `motive ts`. -/
@[elab_as_elim]
theorem forestInductionOn {motive : List (Rose α) → Prop} (ts : List (Rose α)) (nil : motive [])
    (cons : ∀ t ts, motive t.children → motive ts → motive (t :: ts)) : motive ts :=
  @Rose.rec_1 α (fun t => motive t.children) motive (fun _ _ hbelow => hbelow) nil cons ts

/-! ## Nodes in order -/

theorem preorderList_eq_flatMap (ts : List (Rose α)) : preorderList ts = ts.flatMap preorder := by
  induction ts with
  | nil => rfl
  | cons t ts ih => rw [preorderList, ih, List.flatMap_cons]

theorem mem_preorderList_iff {ts : List (Rose α)} {value : α} :
    value ∈ preorderList ts ↔ ∃ t ∈ ts, value ∈ t.preorder := by
  rw [preorderList_eq_flatMap]
  exact List.mem_flatMap

theorem value_mem_preorder (t : Rose α) : t.value ∈ t.preorder := by
  obtain ⟨v, ts⟩ := t
  exact List.mem_cons_self

/-! ## Other values in the same place -/

theorem mapList_eq_map (f : α → β) (ts : List (Rose α)) : mapList f ts = ts.map (map f) := by
  induction ts with
  | nil => rfl
  | cons t ts ih => rw [mapList, ih, List.map_cons]

@[simp] theorem map_node (f : α → β) (v : α) (ts : List (Rose α)) :
    map f (.node v ts) = .node (f v) (ts.map (map f)) := by
  rw [map, mapList_eq_map]

theorem map_map (g : β → γ) (f : α → β) (t : Rose α) : (t.map f).map g = t.map (g ∘ f) := by
  induction t using inductionOn with
  | node v ts ih =>
      simp only [map_node, List.map_map]
      exact congrArg _ (List.map_congr_left ih)

theorem preorder_map (f : α → β) (t : Rose α) : (t.map f).preorder = t.preorder.map f := by
  induction t using inductionOn with
  | node v ts ih =>
      simp only [map_node, preorder, List.map_cons, preorderList_eq_flatMap, List.flatMap_map, List.map_flatMap]
      exact congrArg _ (List.flatMap_congr ih)

/-! ## Subtrees -/

/-- `Sub s t`: `s` is `t`, or `Sub s u` for one of the children `u` of `t`. -/
inductive Sub : Rose α → Rose α → Prop where
  | refl {t} : Sub t t
  | child {s t v ts} : t ∈ ts → Sub s t → Sub s (.node v ts)

theorem Sub.trans {r s t : Rose α} (hrs : Sub r s) (hst : Sub s t) : Sub r t := by
  induction hst with
  | refl => exact hrs
  | child hmem _ ih => exact .child hmem ih

theorem Sub.of_mem {s t u : Rose α} (h : Sub s t) (hu : u ∈ s.children) : Sub u t := by
  obtain ⟨v, ts⟩ := s
  have hchild : Sub u (.node v ts) := .child hu .refl
  exact hchild.trans h

theorem Sub.value_mem {s t : Rose α} (h : Sub s t) : s.value ∈ t.preorder := by
  induction h with
  | refl => exact value_mem_preorder _
  | child hmem _ ih => exact List.mem_cons_of_mem _ (mem_preorderList_iff.mpr ⟨_, hmem, ih⟩)

/-- `t.preorder` lists the values `s.value` of the subtrees `s` of `t`. -/
theorem exists_sub {value : α} (t : Rose α) (h : value ∈ t.preorder) : ∃ s, Sub s t ∧ s.value = value := by
  induction t using inductionOn with
  | node v ts ih =>
      rcases List.mem_cons.mp h with rfl | hbelow
      · exact ⟨_, .refl, rfl⟩
      · obtain ⟨t, ht, hvalue⟩ := mem_preorderList_iff.mp hbelow
        obtain ⟨s, hsub, hs⟩ := ih t ht hvalue
        exact ⟨s, .child ht hsub, hs⟩

/-- `Path t values`: `values` leads from the root value of `t` to the value of one of its nodes, downwards. -/
inductive Path : Rose α → List α → Prop where
  | here {v ts} : Path (.node v ts) [v]
  | step {v ts t values} : t ∈ ts → Path t values → Path (.node v ts) (v :: values)

theorem Path.map (f : α → β) {t : Rose α} {values : List α} (h : Path t values) :
    Path (t.map f) (values.map f) := by
  induction h with
  | here =>
      rw [map_node]
      exact .here
  | step hmem _ ih =>
      rw [map_node]
      exact .step (List.mem_map_of_mem hmem) ih

theorem Path.mem_preorder {t : Rose α} {values : List α} (h : Path t values) {value : α} (hvalue : value ∈ values) :
    value ∈ t.preorder := by
  induction h with
  | here => exact List.mem_cons.mpr (Or.inl (List.mem_singleton.mp hvalue))
  | step hmem _ ih =>
      rcases List.mem_cons.mp hvalue with rfl | hbelow
      · exact List.mem_cons_self
      · exact List.mem_cons_of_mem _ (mem_preorderList_iff.mpr ⟨_, hmem, ih hbelow⟩)

/-- Every `value ∈ t.preorder` ends some `Path t (above ++ [value])`. -/
theorem exists_path {value : α} (t : Rose α) (h : value ∈ t.preorder) : ∃ above, Path t (above ++ [value]) := by
  induction t using inductionOn with
  | node v ts ih =>
      rcases List.mem_cons.mp h with rfl | hbelow
      · exact ⟨[], .here⟩
      · obtain ⟨t, ht, hvalue⟩ := mem_preorderList_iff.mp hbelow
        obtain ⟨above, hpath⟩ := ih t ht hvalue
        exact ⟨v :: above, .step ht hpath⟩

end PegTree.Rose
