import PegTree.Proofs.Coverage
import PegTree.Proofs.RuleGraph

/-!
# `Proofs.Conformance` — an accepted tree is a derivation of the grammar

The guard against left recursion makes what a rule matches depend on the rules that are active when it is
called, so the tree of a left-recursive grammar cannot be read off ordered choice. It can be read off the
grammar all the same: whatever the engine has tried and given up, the children it keeps under a rule are what
the pattern of that rule can consist of.

* `Conforms` — the nodes, one after the other, are what a pattern consists of. It looks at nodes only, not at
  what lies below them.
* `MatchTree.Grammatical` — this holds at every rule of a tree, for the first declaration of its name.
* `Produces.conforms` — every production is of this kind.

`matchInput_conforms` says it of the store. The root is the one node that was not reached by its name, and
conforms to the rule that was asked for.
-/

namespace PegTree

open Text

/-! ## Conformance -/

/-- `span.start < span.stop`. -/
def Node.Covers (node : Node) : Prop :=
  node.span.start < node.span.stop

/-- **The nodes conform to the pattern**, up to the alternative of a choice, the presence of an optional part and
    the number of rounds; in `repMore` some node of the round `Covers` a unit. -/
inductive Conforms : Pattern → List Node → Prop where
  | literal {value span} : Conforms (.literal value) [⟨.literal value, span⟩]
  | ref {name span} : Conforms (.ref name) [⟨.rule name, span⟩]
  | seqNil : Conforms (.seq []) []
  | seqCons {p ps xs ys} : Conforms p xs → Conforms (.seq ps) ys → Conforms (.seq (p :: ps)) (xs ++ ys)
  | choice {p ps nodes} : p ∈ ps → Conforms p nodes → Conforms (.choice ps) nodes
  | optNone {p} : Conforms (.opt p) []
  | optSome {p nodes} : Conforms p nodes → Conforms (.opt p) nodes
  | repDone {p} : Conforms (.rep p) []
  | repMore {p xs ys} : Conforms p xs → (∃ node ∈ xs, node.Covers) → Conforms (.rep p) ys →
      Conforms (.rep p) (xs ++ ys)

/-- **Every rule of the tree conforms** to the first declaration of its name (`First`), and a literal is a leaf. -/
inductive MatchTree.Grammatical (table : Table) : MatchTree → Prop where
  | literal {value span} : Grammatical table (.node ⟨.literal value, span⟩ [])
  | rule {name rule span ts} : First (·.name = name) table.rules rule →
      Conforms rule.pattern (ts.map Rose.value) → (∀ t ∈ ts, Grammatical table t) →
      Grammatical table (.node ⟨.rule name, span⟩ ts)

/-- `Grammatical` is inherited by every `Rose.Sub`. -/
theorem MatchTree.Grammatical.sub {table : Table} {s t : MatchTree} (hsub : Rose.Sub s t)
    (h : Grammatical table t) : Grammatical table s := by
  induction hsub with
  | refl => exact h
  | child hmem _ ih =>
      cases h with
      | literal => exact absurd hmem List.not_mem_nil
      | rule _ _ hts => exact ih (hts _ hmem)

/-! ## Productions conform -/

/-- `indexOf?` followed by `ruleAt?` gives the first declaration of the name. -/
theorem Table.first_of_indexOf? {table : Table} {name : String} {index : Nat} {rule : Rule}
    (hindex : table.indexOf? name = some index) (hrule : table.ruleAt? index = some rule) :
    First (·.name = name) table.rules rule := by
  apply Table.get?_eq_some_iff.mp
  unfold Table.indexOf? at hindex
  unfold Table.get?
  rw [List.find?_eq_bind_findIdx?_getElem?, hindex]
  exact hrule

/-- A tiling from `pos` to `stop ≠ pos` contains a span with `start < stop`. -/
theorem Tiles.exists_lt {pos stop : Nat} {spans : List Span} (h : Tiles pos stop spans)
    (hle : ∀ span ∈ spans, span.start ≤ span.stop) (hne : stop ≠ pos) :
    ∃ span ∈ spans, span.start < span.stop := by
  induction spans generalizing pos with
  | nil => exact absurd (Eq.symm h) hne
  | cons span spans ih =>
      obtain ⟨rfl, htail⟩ := h
      rcases Nat.eq_or_lt_of_le (hle span List.mem_cons_self) with heq | hlt
      · obtain ⟨later, hlater, hlt⟩ :=
          ih htail (fun s hs => hle s (List.mem_cons_of_mem _ hs)) (heq ▸ hne)
        exact ⟨later, List.mem_cons_of_mem _ hlater, hlt⟩
      · exact ⟨span, List.mem_cons_self, hlt⟩

namespace Match

variable {table : Table} {input : Input}

/-- A production with `stop ≠ pos` has a node that `Covers` a unit; it gives the side condition of
    `Conforms.repMore`. -/
theorem Produces.exists_covers {p : Pattern} {pos stop : Nat} {nodes : List MatchTree}
    (h : Produces table input p pos stop nodes) (hne : stop ≠ pos) :
    ∃ node ∈ nodes.map Rose.value, node.Covers := by
  obtain ⟨htiles, hexact⟩ := h.exact
  have hle : ∀ span ∈ nodes.map (·.value.span), span.start ≤ span.stop := by
    intro span hspan
    obtain ⟨t, ht, rfl⟩ := List.mem_map.mp hspan
    exact (hexact t ht).le
  obtain ⟨span, hspan, hlt⟩ := htiles.exists_lt hle hne
  obtain ⟨t, ht, rfl⟩ := List.mem_map.mp hspan
  exact ⟨t.value, List.mem_map_of_mem ht, hlt⟩

/-- **Every production conforms to its pattern** (`Produces` → `Conforms`), and every tree in it is
    `Grammatical`. -/
theorem Produces.conforms {p : Pattern} {pos stop : Nat} {nodes : List MatchTree}
    (h : Produces table input p pos stop nodes) :
    Conforms p (nodes.map Rose.value) ∧ ∀ t ∈ nodes, MatchTree.Grammatical table t := by
  induction h with
  | literal _ =>
      refine ⟨.literal, fun t ht => ?_⟩
      rw [List.mem_singleton.mp ht]
      exact .literal
  | ref hindex hrule _ ih =>
      have hfirst := Table.first_of_indexOf? hindex hrule
      have hname := hfirst.1
      subst hname
      refine ⟨.ref, fun t ht => ?_⟩
      rw [List.mem_singleton.mp ht]
      exact .rule hfirst ih.1 ih.2
  | seqNil => exact ⟨.seqNil, fun t ht => absurd ht List.not_mem_nil⟩
  | seqCons _ _ ih₁ ih₂ =>
      rw [List.map_append]
      exact ⟨.seqCons ih₁.1 ih₂.1, fun t ht => (List.mem_append.mp ht).elim (ih₁.2 t) (ih₂.2 t)⟩
  | choice hmem _ ih => exact ⟨.choice hmem ih.1, ih.2⟩
  | optNone => exact ⟨.optNone, fun t ht => absurd ht List.not_mem_nil⟩
  | optSome _ ih => exact ⟨.optSome ih.1, ih.2⟩
  | repDone => exact ⟨.repDone, fun t ht => absurd ht List.not_mem_nil⟩
  | repMore hround hmid _ ih₁ ih₂ =>
      -- the round moves on, and a tiling moves on only through one of its nodes
      rw [List.map_append]
      exact ⟨.repMore ih₁.1 (hround.exists_covers hmid) ih₂.1,
        fun t ht => (List.mem_append.mp ht).elim (ih₁.2 t) (ih₂.2 t)⟩

/-- An accepted tree is a node `.rule rule.name`, where `ruleAt? index = some rule`, over children that conform to
    `rule.pattern`. -/
theorem matchInput_grammatical {index : Nat} {settings : Settings} {tree : MatchTree}
    (h : matchInput table index input settings = .ok tree) :
    ∃ rule span ts, table.ruleAt? index = some rule ∧ tree = .node ⟨.rule rule.name, span⟩ ts ∧
      Conforms rule.pattern (ts.map Rose.value) ∧ ∀ t ∈ ts, MatchTree.Grammatical table t := by
  obtain ⟨rule, nodes, hrule, hnodes, rfl⟩ := matchInput_produces h
  exact ⟨rule, _, nodes, hrule, rfl, hnodes.conforms⟩

end Match

/-! ## The store -/

/-- **Conformance at an entry of the store**: the nodes at `entry.children`, in order, satisfy `Conforms p`. -/
def Tree.ConformsAt (tree : Tree) (entry : Entry) (p : Pattern) : Prop :=
  ∃ nodes, entry.children.map (fun c => (tree.get? c).map (·.toNode)) = nodes.map some ∧ Conforms p nodes

namespace MatchTree

/-- `Conforms` of the children of a placed tree is `ConformsAt` of its entry. -/
theorem Placed.conformsAt {tree : Tree} {above : Option Nat} {id : Nat} {value : Node} {ts : List MatchTree}
    {p : Pattern} {entry : Entry} (h : Placed tree above id (.node value ts))
    (hentry : tree.get? id = some entry) (hconforms : Conforms p (ts.map Rose.value)) :
    tree.ConformsAt entry p := by
  obtain ⟨hget, hbelow⟩ := h.node
  cases hget.symm.trans hentry
  refine ⟨ts.map Rose.value, ?_, hconforms⟩
  rw [List.map_map]
  exact get?_rootsFrom ts id (id + 1) hbelow

/-- An `id ≠ 0` of `Tree.ofMatch (.node value ts)` is the place of a subtree of some `t ∈ ts`. -/
theorem exists_placed_below {value : Node} {ts : List MatchTree} {id : Nat} {entry : Entry} (hid : id ≠ 0)
    (hentry : (Tree.ofMatch (.node value ts)).get? id = some entry) :
    ∃ above s t, t ∈ ts ∧ Rose.Sub s t ∧ Placed (Tree.ofMatch (.node value ts)) above id s ∧
      entry.toNode = s.value := by
  have hlt : id < 1 + Rose.sizeList ts := by
    have hsize := Tree.get?_lt_size hentry
    rwa [size_ofMatch] at hsize
  have hbelow := (placed_ofMatch (.node value ts)).node.2
  obtain ⟨above, s, t, ht, hsub, hs⟩ := exists_placedList ts 0 1 hbelow (id - 1) (by omega)
  rw [show 1 + (id - 1) = id by omega] at hs
  refine ⟨above, s, t, ht, hsub, hs, ?_⟩
  obtain ⟨v, us⟩ := s
  cases hs.node.1.symm.trans hentry
  rfl

end MatchTree

namespace Match

/-- **An accepted tree is a derivation of the grammar.** The entry at `0` is `.rule rule.name` with
    `ruleAt? index = some rule`, and satisfies `ConformsAt` for `rule.pattern`; every other entry `.rule name`
    satisfies it for the pattern of the first declaration of `name`. -/
theorem matchInput_conforms {table : Table} {index : Nat} {input : Input} {settings : Settings}
    {found : MatchTree} (h : matchInput table index input settings = .ok found) :
    (∃ rule root, table.ruleAt? index = some rule ∧ (Tree.ofMatch found).get? 0 = some root ∧
      root.kind = .rule rule.name ∧ (Tree.ofMatch found).ConformsAt root rule.pattern) ∧
    (∀ id entry name, id ≠ 0 → (Tree.ofMatch found).get? id = some entry → entry.kind = .rule name →
      ∃ rule, First (·.name = name) table.rules rule ∧
        (Tree.ofMatch found).ConformsAt entry rule.pattern) := by
  obtain ⟨rule, span, ts, hrule, rfl, hconforms, hbelow⟩ := matchInput_grammatical h
  have hplaced := MatchTree.placed_ofMatch (.node ⟨.rule rule.name, span⟩ ts)
  refine ⟨⟨rule, _, hrule, hplaced.node.1, rfl, hplaced.conformsAt hplaced.node.1 hconforms⟩, ?_⟩
  intro id entry name hid hentry hname
  obtain ⟨above, s, t, ht, hsub, hs, hvalue⟩ := MatchTree.exists_placed_below hid hentry
  have hgrammatical := (hbelow t ht).sub hsub
  rw [hvalue] at hname
  cases hgrammatical with
  | literal => cases hname
  | rule hfirst hchildren _ =>
      cases hname
      exact ⟨_, hfirst, hs.conformsAt hentry hchildren⟩

/-- `sum := sum "+" | "1"`, which recurs on its left, and a second declaration `sum := "-" sum*`. -/
def leftTable : Table :=
  ⟨[⟨"sum", .choice [.seq [.ref "sum", .literal "+"], .literal "1"]⟩,
    ⟨"sum", .seq [.literal "-", .rep (.ref "sum")]⟩]⟩

/-- The theorem from index `1` of `leftTable`: the root conforms to the second declaration, the two sums below it to
    the first, whose left recursion the guard has cut. -/
theorem matchInput_conforms_leftTable :
    ∃ found, matchInput leftTable 1 (.ofString "-11") {} = .ok found ∧ found.size = 6 ∧
      (∃ root, (Tree.ofMatch found).get? 0 = some root ∧ root.children = [1, 2, 4] ∧
        (Tree.ofMatch found).ConformsAt root (.seq [.literal "-", .rep (.ref "sum")])) ∧
      ∃ entry, (Tree.ofMatch found).get? 4 = some entry ∧
        (Tree.ofMatch found).ConformsAt entry
          (.choice [.seq [.ref "sum", .literal "+"], .literal "1"]) := by
  have hok : ∃ found, matchInput leftTable 1 (.ofString "-11") {} = .ok found ∧ found.size = 6 ∧
      (∃ root, (Tree.ofMatch found).get? 0 = some root ∧ root.children = [1, 2, 4]) ∧
      ∃ entry, (Tree.ofMatch found).get? 4 = some entry ∧ entry.kind = .rule "sum" :=
    ⟨_, rfl, by decide, ⟨_, rfl, by decide⟩, _, rfl, by decide⟩
  obtain ⟨found, hfound, hsize, ⟨root, hroot, hchildren⟩, entry, hentry, hkind⟩ := hok
  obtain ⟨⟨rule, root', hrule, hroot', _, hconforms⟩, hothers⟩ := matchInput_conforms hfound
  cases hroot.symm.trans hroot'
  cases hrule
  refine ⟨found, hfound, hsize, ⟨root, hroot, hchildren, hconforms⟩, entry, hentry, ?_⟩
  obtain ⟨first, hfirst, hbelow⟩ := hothers 4 entry "sum" (by decide) hentry hkind
  rw [← Table.get?_eq_some_iff] at hfirst
  cases hfirst
  exact hbelow

end Match

end PegTree
