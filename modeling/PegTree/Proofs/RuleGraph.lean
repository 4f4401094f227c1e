import Mathlib.Logic.Relation
import PegTree.Table.Defect

/-!
# `Proofs.RuleGraph` — which rules speak of which

A rule refers to a name when a reference to it stands anywhere in its pattern (`Pattern.Within`). References
lead from name to name through the first declaration of each (`Table.RefersTo`), and what can be reached from
a name is the reflexive and transitive closure of that.

`Table.reachable` computes this closure with a stack of pending names: names may stand on the stack several
times, and rules may refer to each other in circles. Three facts make it exact.

* **It ends.** `Table.Visits` is the loop without a bound on its visits; every state of the loop has a run to
  the empty stack, and the bounded search performs it (`visits_visit`). What goes down is the number of
  pending names plus the number of references in rules that are still to be expanded (`work`).
* **Nothing else is visited** (`Visits.sound`).
* **Nothing is left out**: what a visited name refers to is visited or pending (`Visits.closed`).
-/

namespace PegTree

/-! ## Occurrences -/

namespace Pattern

/-- **`q.Within p`**: `q` is `p` or a part of it, at any depth. -/
inductive Within (q : Pattern) : Pattern → Prop where
  | here : Within q q
  | seq {p ps} : p ∈ ps → Within q p → Within q (.seq ps)
  | choice {p ps} : p ∈ ps → Within q p → Within q (.choice ps)
  | opt {p} : Within q p → Within q (.opt p)
  | rep {p} : Within q p → Within q (.rep p)

theorem self_mem_parts (p : Pattern) : p ∈ p.parts := by
  cases p <;> simp [parts]

theorem within_of_mem_parts {q p : Pattern} (h : q ∈ p.parts) : q.Within p := by
  induction p using Pattern.inductionOn with
  | literal value =>
      rw [parts, List.mem_singleton] at h
      exact h ▸ .here
  | ref name =>
      rw [parts, List.mem_singleton] at h
      exact h ▸ .here
  | seq ps ih =>
      rw [parts, List.mem_cons, mem_partsList] at h
      rcases h with rfl | ⟨p, hp, hq⟩
      · exact .here
      · exact .seq hp (ih p hp hq)
  | choice ps ih =>
      rw [parts, List.mem_cons, mem_partsList] at h
      rcases h with rfl | ⟨p, hp, hq⟩
      · exact .here
      · exact .choice hp (ih p hp hq)
  | opt p ih =>
      rw [parts, List.mem_cons] at h
      rcases h with rfl | hq
      · exact .here
      · exact .opt (ih hq)
  | rep p ih =>
      rw [parts, List.mem_cons] at h
      rcases h with rfl | hq
      · exact .here
      · exact .rep (ih hq)

/-- `p.parts` lists `{q | q.Within p}`. -/
theorem mem_parts_iff {q p : Pattern} : q ∈ p.parts ↔ q.Within p := by
  refine ⟨within_of_mem_parts, fun h => ?_⟩
  induction h with
  | here => exact self_mem_parts q
  | seq hp _ ih =>
      rw [parts, List.mem_cons, mem_partsList]
      exact Or.inr ⟨_, hp, ih⟩
  | choice hp _ ih =>
      rw [parts, List.mem_cons, mem_partsList]
      exact Or.inr ⟨_, hp, ih⟩
  | opt _ ih => exact List.mem_cons_of_mem _ ih
  | rep _ ih => exact List.mem_cons_of_mem _ ih

theorem reference?_eq_some_iff {p : Pattern} {name : String} :
    p.reference? = some name ↔ p = .ref name := by
  cases p <;> simp [reference?]

theorem literal?_eq_some_iff {p : Pattern} {value : String} :
    p.literal? = some value ↔ p = .literal value := by
  cases p <;> simp [literal?]

theorem mem_references_iff {p : Pattern} {name : String} :
    name ∈ p.references ↔ (Pattern.ref name).Within p := by
  simp only [references, List.mem_filterMap, reference?_eq_some_iff, exists_eq_right, mem_parts_iff]

theorem mem_literals_iff {p : Pattern} {value : String} :
    value ∈ p.literals ↔ (Pattern.literal value).Within p := by
  simp only [literals, List.mem_filterMap, literal?_eq_some_iff, exists_eq_right, mem_parts_iff]

end Pattern

/-! ## The first of a list -/

/-- **`First P xs x`**: `P x`, and `xs = before ++ x :: after` with `¬ P y` for all `y ∈ before`. -/
def First {α : Type} (P : α → Prop) (xs : List α) (x : α) : Prop :=
  P x ∧ ∃ before after, xs = before ++ x :: after ∧ ∀ y ∈ before, ¬ P y

theorem First.mem {α : Type} {P : α → Prop} {xs : List α} {x : α} (h : First P xs x) : x ∈ xs := by
  obtain ⟨_, before, after, rfl, _⟩ := h
  exact List.mem_append_right _ List.mem_cons_self

/-- `List.find?` with a test `p` for `P` returns the `First P`. -/
theorem find?_eq_some_iff_first {α : Type} {p : α → Bool} {P : α → Prop} (hp : ∀ x, p x = true ↔ P x)
    {xs : List α} {x : α} : xs.find? p = some x ↔ First P xs x := by
  simp only [List.find?_eq_some_iff_append, First, hp, Bool.not_eq_true', ← Bool.not_eq_true]

namespace Table

variable {table : Table}

/-! ## References between names -/

/-- **One step of reference**: `Pattern.ref next` is within the first rule called `name`. -/
def RefersTo (table : Table) (name next : String) : Prop :=
  ∃ rule, First (·.name = name) table.rules rule ∧ (Pattern.ref next).Within rule.pattern

/-- **`table.LeadsTo`** is the reflexive and transitive closure of `table.RefersTo`. -/
def LeadsTo (table : Table) : String → String → Prop :=
  Relation.ReflTransGen table.RefersTo

theorem get?_eq_some_iff {name : String} {rule : Rule} :
    table.get? name = some rule ↔ First (·.name = name) table.rules rule :=
  find?_eq_some_iff_first fun _ => beq_iff_eq

theorem mem_successors_iff {name next : String} :
    next ∈ table.successors name ↔ table.RefersTo name next := by
  simp only [RefersTo, ← get?_eq_some_iff, ← Pattern.mem_references_iff]
  unfold successors
  split
  · rename_i rule hrule
    simp [hrule]
  · rename_i hnone
    simp [hnone]

/-! ## The loop without a bound -/

/-- **`table.Visits pending visited result`**: the loop of `Table.visit`, with the stack `pending` and no bound on
    its visits, runs until the stack is empty and returns `result`. -/
inductive Visits (table : Table) : (pending visited result : List String) → Prop where
  | done {visited} : Visits table [] visited visited
  | skip {name pending visited result} : name ∈ visited → Visits table pending visited result →
      Visits table (name :: pending) visited result
  | expand {name pending visited result} : name ∉ visited →
      Visits table ((table.successors name).reverse ++ pending) (name :: visited) result →
      Visits table (name :: pending) visited result

/-- The number of references in rules whose name is not in `visited`. -/
def work (visited : List String) : List Rule → Nat
  | [] => 0
  | rule :: rules =>
    (if rule.name ∈ visited then 0 else rule.pattern.references.length) + work visited rules

theorem work_nil (rules : List Rule) : work [] rules = (rules.flatMap (·.pattern.references)).length := by
  induction rules with
  | nil => rfl
  | cons rule rules ih =>
      rw [work, if_neg List.not_mem_nil, ih, List.flatMap_cons, List.length_append]

theorem work_cons_le (visited : List String) (name : String) (rules : List Rule) :
    work (name :: visited) rules ≤ work visited rules := by
  induction rules with
  | nil => exact Nat.le_refl _
  | cons rule rules ih =>
      simp only [work]
      by_cases hvisited : rule.name ∈ visited
      · rw [if_pos (List.mem_cons_of_mem _ hvisited), if_pos hvisited]
        exact Nat.add_le_add_left ih 0
      · rw [if_neg hvisited]
        split <;> omega

/-- Visiting a new `name`, expanded by `rule`, lowers `work` by at least `rule.pattern.references.length`. -/
theorem work_expand {rules : List Rule} {rule : Rule} {visited : List String} {name : String}
    (hfirst : rules.find? (·.name == name) = some rule) (hnew : name ∉ visited) :
    work (name :: visited) rules + rule.pattern.references.length ≤ work visited rules := by
  induction rules with
  | nil => cases hfirst
  | cons first rules ih =>
      simp only [work]
      by_cases hname : first.name = name
      · -- the first declaration itself: it counts before and not after
        rw [List.find?_cons_of_pos (by simpa using hname)] at hfirst
        cases Option.some.inj hfirst
        have hrest := work_cons_le visited name rules
        rw [if_pos (List.mem_cons.mpr (Or.inl hname)), if_neg (hname ▸ hnew)]
        omega
      · rw [List.find?_cons_of_neg (by simpa using hname)] at hfirst
        have hrest := ih hfirst
        by_cases hvisited : first.name ∈ visited
        · rw [if_pos (List.mem_cons_of_mem _ hvisited), if_pos hvisited]
          omega
        · rw [if_neg (by simp [hname, hvisited]), if_neg hvisited]
          omega

theorem work_successors (table : Table) {visited : List String} {name : String}
    (hnew : name ∉ visited) :
    work (name :: visited) table.rules + (table.successors name).length ≤ work visited table.rules := by
  unfold successors
  split
  · rename_i rule hrule
    exact work_expand hrule hnew
  · exact work_cons_le visited name table.rules

/-- **The loop terminates from every state**: `pending.length + work visited table.rules` visits are enough. -/
theorem visits_visit {fuel : Nat} {pending visited : List String}
    (hfuel : pending.length + work visited table.rules ≤ fuel) :
    table.Visits pending visited (table.visit fuel pending visited) := by
  induction fuel generalizing pending visited with
  | zero =>
      cases pending with
      | nil => exact .done
      | cons name pending => simp at hfuel
  | succ fuel ih =>
      cases pending with
      | nil => exact .done
      | cons name pending =>
          rw [List.length_cons] at hfuel
          rw [visit]
          by_cases hvisited : name ∈ visited
          · rw [if_pos (List.contains_iff_mem.mpr hvisited)]
            exact .skip hvisited (ih (by omega))
          · rw [if_neg (fun h => hvisited (List.contains_iff_mem.mp h))]
            have hwork := work_successors table hvisited
            refine .expand hvisited (ih ?_)
            rw [List.length_append, List.length_reverse]
            omega

/-! ## What the loop visits -/

/-- `result ⊆ visited ∪ {name | ∃ start ∈ pending, table.LeadsTo start name}`. -/
theorem Visits.sound {pending visited result : List String} (h : table.Visits pending visited result)
    {name : String} (hname : name ∈ result) :
    name ∈ visited ∨ ∃ start ∈ pending, table.LeadsTo start name := by
  induction h with
  | done => exact Or.inl hname
  | skip _ _ ih =>
      rcases ih hname with hvisited | ⟨start, hstart, hleads⟩
      · exact Or.inl hvisited
      · exact Or.inr ⟨start, List.mem_cons_of_mem _ hstart, hleads⟩
  | @expand next pending visited result _ _ ih =>
      rcases ih hname with hvisited | ⟨start, hstart, hleads⟩
      · rcases List.mem_cons.mp hvisited with rfl | hvisited
        · exact Or.inr ⟨name, List.mem_cons_self, .refl⟩
        · exact Or.inl hvisited
      · rcases List.mem_append.mp hstart with hsuccessor | hpending
        · -- one reference more in front
          have hrefers := mem_successors_iff.mp (List.mem_reverse.mp hsuccessor)
          exact Or.inr ⟨next, List.mem_cons_self, hleads.head hrefers⟩
        · exact Or.inr ⟨start, List.mem_cons_of_mem _ hpending, hleads⟩

/-- `visited ∪ pending ⊆ result`. -/
theorem Visits.subset {pending visited result : List String} (h : table.Visits pending visited result) :
    (∀ name ∈ visited, name ∈ result) ∧ ∀ name ∈ pending, name ∈ result := by
  induction h with
  | done => exact ⟨fun _ h => h, fun _ h => absurd h List.not_mem_nil⟩
  | skip hvisited _ ih =>
      refine ⟨ih.1, fun name hname => ?_⟩
      rcases List.mem_cons.mp hname with rfl | hname
      · exact ih.1 _ hvisited
      · exact ih.2 _ hname
  | expand _ _ ih =>
      refine ⟨fun name hname => ih.1 _ (List.mem_cons_of_mem _ hname), fun name hname => ?_⟩
      rcases List.mem_cons.mp hname with rfl | hname
      · exact ih.1 _ List.mem_cons_self
      · exact ih.2 _ (List.mem_append_right _ hname)

/-- If `table.successors` leads from `visited` into `visited ∪ pending`, it leads from `result` into `result`. -/
theorem Visits.closed {pending visited result : List String} (h : table.Visits pending visited result)
    (hopen : ∀ name ∈ visited, ∀ next ∈ table.successors name, next ∈ visited ∨ next ∈ pending) :
    ∀ name ∈ result, ∀ next ∈ table.successors name, next ∈ result := by
  induction h with
  | done =>
      intro name hname next hnext
      exact (hopen name hname next hnext).resolve_right List.not_mem_nil
  | skip hvisited _ ih =>
      refine ih fun name hname next hnext => ?_
      rcases hopen name hname next hnext with hnext | hnext
      · exact Or.inl hnext
      · rcases List.mem_cons.mp hnext with rfl | hnext
        · exact Or.inl hvisited
        · exact Or.inr hnext
  | expand _ _ ih =>
      refine ih fun name hname next hnext => ?_
      rcases List.mem_cons.mp hname with rfl | hname
      · exact Or.inr (List.mem_append_left _ (List.mem_reverse.mpr hnext))
      · rcases hopen name hname next hnext with hnext | hnext
        · exact Or.inl (List.mem_cons_of_mem _ hnext)
        · rcases List.mem_cons.mp hnext with rfl | hnext
          · exact Or.inl List.mem_cons_self
          · exact Or.inr (List.mem_append_right _ hnext)

/-- **From `[start]` and nothing visited**, `result` is `{name | table.LeadsTo start name}`. -/
theorem Visits.mem_iff {start : String} {result : List String} (h : table.Visits [start] [] result)
    {name : String} : name ∈ result ↔ table.LeadsTo start name := by
  constructor
  · intro hname
    rcases h.sound hname with hvisited | ⟨start', hstart, hleads⟩
    · exact absurd hvisited List.not_mem_nil
    · cases List.mem_singleton.mp hstart
      exact hleads
  · intro hleads
    have hclosed := h.closed fun _ hname => absurd hname List.not_mem_nil
    induction hleads with
    | refl => exact h.subset.2 start List.mem_cons_self
    | tail _ hrefers ih => exact hclosed _ ih _ (mem_successors_iff.mpr hrefers)

/-- `table.reachable` is what `table.Visits` returns from `[root.name]`; the bound of `Table.visit` is not
    reached. -/
theorem visits_reachable {root : Rule} (hroot : table.root? = some root) :
    table.Visits [root.name] [] table.reachable := by
  rw [reachable, hroot]
  exact visits_visit (Nat.le_of_eq (by rw [work_nil, List.length_singleton]))

end Table

end PegTree
