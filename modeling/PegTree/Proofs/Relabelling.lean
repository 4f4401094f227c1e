import Mathlib.Data.List.Nodup
import Mathlib.Data.Set.Function
import Mathlib.Logic.Equiv.Basic
import PegTree.Proofs.Correspondence
import PegTree.Proofs.Defects
import PegTree.Proofs.Growth

/-!
# `Proofs.Relabelling` — names and their order do not matter

What a table without defects parses depends on neither the names of its rules nor the order in which they are
declared, the root apart. `Table.Relabelled` is a table with the same rules in another order, the root still
first, under other names.

* **It has no defect either** (`Relabelled.meets`). Names that were distinct stay distinct because the
  translation keeps declared names apart, and every reference is to a declared name; references lead where they
  led before.
* **It mirrors the table** (`Relabelled.mirror`). The counterpart of a rule is found by its name, and no two
  rules share one, so indexes are paired off one to one.
-/

namespace PegTree

/-- The rule under the name `ρ rule.name`, with `ρ` applied to its references. -/
def Rule.rename (ρ : String → String) (rule : Rule) : Rule :=
  ⟨ρ rule.name, rule.pattern.rename ρ⟩

/-- **The same rules under other names**: `table'` is a permutation of `table` that keeps the root first, renamed by
    `ρ`. -/
def Table.Relabelled (ρ : String → String) (table table' : Table) : Prop :=
  ∃ rules : List Rule, rules.Perm table.rules ∧ rules.head? = table.rules.head? ∧
    table'.rules = rules.map (Rule.rename ρ)

def Entry.rename (ρ : String → String) (entry : Entry) : Entry :=
  { entry with toNode := entry.toNode.rename ρ }

/-- The store with `ρ` applied to the names of rules; spans and numbers stay. -/
def Tree.rename (ρ : String → String) (tree : Tree) : Tree :=
  ⟨tree.nodes.map (Entry.rename ρ)⟩

/-! ## Translated patterns -/

namespace Pattern

variable {ρ : String → String}

theorem partsList_rename {ps : List Pattern} (h : ∀ p ∈ ps, (p.rename ρ).parts = p.parts.map (rename ρ)) :
    partsList (ps.map (rename ρ)) = (partsList ps).map (rename ρ) := by
  induction ps with
  | nil => rfl
  | cons p ps ih =>
      rw [List.map_cons, partsList, partsList, List.map_append, h p List.mem_cons_self,
        ih fun q hq => h q (List.mem_cons_of_mem _ hq)]

/-- `parts` commutes with `rename`. -/
theorem parts_rename (p : Pattern) : (p.rename ρ).parts = p.parts.map (rename ρ) := by
  induction p using Pattern.inductionOn with
  | literal value => rfl
  | ref name => rfl
  | seq ps ih => rw [rename, renameList_eq_map, parts, parts, partsList_rename ih, List.map_cons, rename,
      renameList_eq_map]
  | choice ps ih => rw [rename, renameList_eq_map, parts, parts, partsList_rename ih, List.map_cons, rename,
      renameList_eq_map]
  | opt p ih => rw [rename, parts, parts, ih, List.map_cons, rename]
  | rep p ih => rw [rename, parts, parts, ih, List.map_cons, rename]

theorem literal_within_rename {p : Pattern} {value : String} :
    (Pattern.literal value).Within (p.rename ρ) ↔ (Pattern.literal value).Within p := by
  rw [← mem_parts_iff, ← mem_parts_iff, parts_rename, List.mem_map]
  constructor
  · rintro ⟨q, hq, heq⟩
    cases q <;> simp_all [rename]
  · exact fun h => ⟨_, h, rfl⟩

/-- The references in `p.rename ρ` are the `ρ old` with `.ref old` in `p`. -/
theorem ref_within_rename {p : Pattern} {name : String} :
    (Pattern.ref name).Within (p.rename ρ) ↔ ∃ old, ρ old = name ∧ (Pattern.ref old).Within p := by
  rw [← mem_parts_iff, parts_rename, List.mem_map]
  constructor
  · rintro ⟨q, hq, heq⟩
    cases q with
    | ref old =>
        cases heq
        exact ⟨old, rfl, mem_parts_iff.mp hq⟩
    | _ => cases heq
  · rintro ⟨old, rfl, hold⟩
    exact ⟨_, mem_parts_iff.mpr hold, rfl⟩

end Pattern

/-! ## Declared names -/

namespace Table

variable {table table' : Table}

/-- With `.namesDistinct` every rule is the first declaration of its name. -/
theorem first_of_mem (hdistinct : table.Meets .namesDistinct) {rule : Rule} (hmem : rule ∈ table.rules) :
    First (·.name = rule.name) table.rules rule := by
  obtain ⟨before, after, hrules⟩ := List.append_of_mem hmem
  refine ⟨rfl, before, after, hrules, fun other hother hname => ?_⟩
  have hnodup : (table.rules.map (·.name)).Nodup := hdistinct
  rw [hrules, List.map_append, List.map_cons] at hnodup
  refine (List.nodup_append.mp hnodup).2.2 other.name (List.mem_map_of_mem hother) rule.name ?_ hname
  exact List.mem_cons_self

/-! ## A relabelled table -/

namespace Relabelled

variable {ρ : String → String}

theorem mem_rules_iff (h : table.Relabelled ρ table') {rule' : Rule} :
    rule' ∈ table'.rules ↔ ∃ rule ∈ table.rules, rule.rename ρ = rule' := by
  obtain ⟨rules, hperm, _, hrules⟩ := h
  rw [hrules, List.mem_map]
  simp only [hperm.mem_iff]

theorem defines (h : table.Relabelled ρ table') {name : String} (hname : table.Defines name) :
    table'.Defines (ρ name) := by
  obtain ⟨rule, hmem, rfl⟩ := hname
  exact ⟨rule.rename ρ, h.mem_rules_iff.mpr ⟨rule, hmem, rfl⟩, rfl⟩

theorem root?_eq (h : table.Relabelled ρ table') : table'.root? = table.root?.map (Rule.rename ρ) := by
  obtain ⟨rules, _, hhead, hrules⟩ := h
  unfold root?
  rw [hrules, List.head?_map, hhead]

/-- The rules of `table'` below the root are renamed from rules of `table` below the root. -/
theorem tail_perm (h : table.Relabelled ρ table') {root' : Rule} {rest' : List Rule}
    (hrules' : table'.rules = root' :: rest') :
    ∃ root rest, table.rules = root :: rest ∧ root' = root.rename ρ ∧
      ∀ rule' ∈ rest', ∃ rule ∈ rest, rule' = rule.rename ρ := by
  obtain ⟨rules, hperm, hhead, hrules⟩ := h
  rw [hrules] at hrules'
  obtain ⟨root, below, rfl, rfl, rfl⟩ := List.map_eq_cons_iff.mp hrules'
  obtain ⟨rest, hrest⟩ : ∃ rest, table.rules = root :: rest :=
    List.head?_eq_some_iff.mp (hhead.symm.trans List.head?_cons)
  rw [hrest, List.perm_cons] at hperm
  refine ⟨root, rest, hrest, rfl, fun rule' hmem => ?_⟩
  obtain ⟨rule, hrule, rfl⟩ := List.mem_map.mp hmem
  exact ⟨rule, hperm.mem_iff.mp hrule, rfl⟩

section Conditions

variable (h : table.Relabelled ρ table') (hmeets : ∀ condition, table.Meets condition)
  (hinj : Set.InjOn ρ {name | table.Defines name})

include h hmeets in
theorem literalsFilled : table'.Meets .literalsFilled := by
  intro rule' hmem
  obtain ⟨rule, hrule, rfl⟩ := h.mem_rules_iff.mp hmem
  exact fun hwithin => hmeets .literalsFilled rule hrule (Pattern.literal_within_rename.mp hwithin)

include h hmeets hinj in
/-- `.namesDistinct` is kept, since `ρ` is injective on declared names. -/
theorem namesDistinct : table'.Meets .namesDistinct := by
  obtain ⟨rules, hperm, _, hrules⟩ := h
  have hnames : table'.rules.map (·.name) = (rules.map (·.name)).map ρ := by
    rw [hrules, List.map_map, List.map_map]
    rfl
  have hnodup : (rules.map (·.name)).Nodup := (hperm.map _).nodup_iff.mpr (hmeets .namesDistinct)
  have hdeclared : ∀ name ∈ rules.map (·.name), table.Defines name := by
    intro name hname
    obtain ⟨rule, hrule, rfl⟩ := List.mem_map.mp hname
    exact ⟨rule, hperm.mem_iff.mp hrule, rfl⟩
  show (table'.rules.map (·.name)).Nodup
  rw [hnames]
  exact List.Nodup.map_on (fun a ha b hb heq => hinj (hdeclared a ha) (hdeclared b hb) heq) hnodup

include h hmeets in
theorem referencesDeclared : table'.Meets .referencesDeclared := by
  intro rule' hmem name hwithin
  obtain ⟨rule, hrule, rfl⟩ := h.mem_rules_iff.mp hmem
  obtain ⟨old, rfl, hold⟩ := Pattern.ref_within_rename.mp hwithin
  exact h.defines (hmeets .referencesDeclared rule hrule old hold)

include h hmeets hinj in
/-- `.rootUnreferenced` is kept: a reference to `ρ root.name` would, by `hinj`, come from one to `root.name`. -/
theorem rootUnreferenced : table'.Meets .rootUnreferenced := by
  intro root' hroot' rule' hmem hwithin
  rw [h.root?_eq] at hroot'
  obtain ⟨root, hroot, rfl⟩ := Option.map_eq_some_iff.mp hroot'
  obtain ⟨rule, hrule, rfl⟩ := h.mem_rules_iff.mp hmem
  obtain ⟨old, heq, hold⟩ := Pattern.ref_within_rename.mp hwithin
  have hdeclared : table.Defines old := hmeets .referencesDeclared rule hrule old hold
  have hrootDeclared : table.Defines root.name := ⟨root, List.mem_of_mem_head? hroot, rfl⟩
  have hname : old = root.name := hinj hdeclared hrootDeclared heq
  exact hmeets .rootUnreferenced root hroot rule hrule (hname ▸ hold)

include h hmeets hinj in
/-- `LeadsTo a b` becomes `LeadsTo (ρ a) (ρ b)`. -/
theorem leadsTo {a b : String} (hleads : table.LeadsTo a b) : table'.LeadsTo (ρ a) (ρ b) := by
  refine Relation.ReflTransGen.lift ρ ?_ a b hleads
  intro name next hrefers
  obtain ⟨rule, hfirst, hwithin⟩ := hrefers
  obtain rfl := hfirst.1
  have hmem := h.mem_rules_iff.mpr ⟨rule, hfirst.mem, rfl⟩
  exact ⟨rule.rename ρ, first_of_mem (h.namesDistinct hmeets hinj) hmem,
    Pattern.ref_within_rename.mpr ⟨next, rfl, hwithin⟩⟩

include h hmeets hinj in
theorem rulesReached : table'.Meets .rulesReached := by
  intro root' rest' hrules' rule' hmem
  obtain ⟨root, rest, hrules, rfl, hrest⟩ := h.tail_perm hrules'
  obtain ⟨rule, hrule, rfl⟩ := hrest rule' hmem
  exact h.leadsTo hmeets hinj (hmeets .rulesReached root rest hrules rule hrule)

include h hmeets hinj in
/-- **A relabelled table meets the conditions that the table meets.** -/
theorem meets (condition : Condition) : table'.Meets condition := by
  cases condition with
  | literalsFilled => exact h.literalsFilled hmeets
  | namesDistinct => exact h.namesDistinct hmeets hinj
  | referencesDeclared => exact h.referencesDeclared hmeets
  | rootUnreferenced => exact h.rootUnreferenced hmeets hinj
  | rulesReached => exact h.rulesReached hmeets hinj

/-! ## Its mirror -/

/-- The indexes of a rule in `table` and of its renaming in `table'`. -/
def Counterpart (ρ : String → String) (table table' : Table) (i j : Nat) : Prop :=
  ∃ rule, table.ruleAt? i = some rule ∧ table'.ruleAt? j = some (rule.rename ρ)

include h hmeets hinj in
theorem counterpart_biUnique : Relator.BiUnique (Counterpart ρ table table') := by
  have hdistinct := h.namesDistinct hmeets hinj
  constructor
  · rintro i k j ⟨rule, hi, hj⟩ ⟨other, hk, hj'⟩
    have hname : ρ rule.name = ρ other.name :=
      congrArg Rule.name (Option.some.inj (hj.symm.trans hj'))
    have hsame : rule.name = other.name :=
      hinj ⟨rule, ruleAt?_mem hi, rfl⟩ ⟨other, ruleAt?_mem hk, rfl⟩ hname
    exact ruleAt?_unique (hmeets .namesDistinct) hi hk hsame
  · rintro i j k ⟨rule, hi, hj⟩ ⟨other, hi', hk⟩
    cases hi.symm.trans hi'
    exact ruleAt?_unique hdistinct hj hk rfl

include h hmeets hinj in
/-- `0` and only `0` is the counterpart of `0`. -/
theorem counterpart_zero_iff {i j : Nat} (hcounterpart : Counterpart ρ table table' i j) : j = 0 ↔ i = 0 := by
  have ⟨rule, hi, _⟩ := hcounterpart
  obtain ⟨root, hroot⟩ : ∃ root, table.root? = some root :=
    Option.isSome_iff_exists.mp (by simpa [root?] using List.ne_nil_of_mem (ruleAt?_mem hi))
  have hzero : Counterpart ρ table table' 0 0 := by
    refine ⟨root, ?_, ?_⟩
    · rw [ruleAt?, ← List.head?_eq_getElem?]
      exact hroot
    · rw [ruleAt?, ← List.head?_eq_getElem?]
      exact h.root?_eq.trans (congrArg _ hroot)
  obtain ⟨hleft, hright⟩ := h.counterpart_biUnique hmeets hinj
  constructor
  · rintro rfl
    exact hleft hcounterpart hzero
  · rintro rfl
    exact hright hcounterpart hzero

include h hmeets hinj in
/-- A declared name and its translation have `indexOf?` at counterparts. -/
theorem sameName {name : String} (hname : table.Defines name) :
    Match.SameName table table' (Counterpart ρ table table') name (ρ name) := by
  obtain ⟨i, rule, hindex, hi, rfl⟩ := hname.indexOf?
  obtain ⟨j, rule', hindex', hj, hname'⟩ := (h.defines hname).indexOf?
  obtain ⟨other, hmem, rfl⟩ := h.mem_rules_iff.mp (ruleAt?_mem hj)
  have hsame : other.name = rule.name := hinj ⟨other, hmem, rfl⟩ hname hname'
  obtain ⟨k, hk⟩ := List.mem_iff_getElem?.mp hmem
  -- the two rules have one name, so they stand at one index
  obtain rfl := ruleAt?_unique (hmeets .namesDistinct) hk hi hsame
  cases hk.symm.trans hi
  rw [Match.SameName, hindex, hindex']
  exact .some ⟨_, hi, hj⟩

include h hmeets hinj in
/-- Every rule is found under its new name. -/
theorem exists_counterpart {i : Nat} {rule : Rule} (hi : table.ruleAt? i = some rule) :
    ∃ j, table'.indexOf? (ρ rule.name) = some j ∧ Counterpart ρ table table' i j := by
  have hsame := h.sameName hmeets hinj ⟨rule, ruleAt?_mem hi, rfl⟩
  obtain ⟨k, other, hindex, hk, hname⟩ := Defines.indexOf? ⟨rule, ruleAt?_mem hi, rfl⟩
  obtain rfl := ruleAt?_unique (hmeets .namesDistinct) hk hi hname
  rw [Match.SameName, hindex] at hsame
  exact Match.Mirror.exists_of_rel_some hsame

/-- **A relabelled table mirrors the table** on every input. -/
def mirror (input : Input) : Match.Mirror table table' input input where
  rename := ρ
  counterpart := Counterpart ρ table table'
  biUnique := h.counterpart_biUnique hmeets hinj
  rules := by
    rintro i j ⟨rule, hi, hj⟩
    rw [hi, hj]
    refine .some ⟨rfl, Pattern.alike_rename _ (fun _ _ _ => rfl) fun name hwithin => ?_⟩
    exact h.sameName hmeets hinj (hmeets .referencesDeclared rule (ruleAt?_mem hi) name hwithin)
  size_eq := rfl
  unit?_eq := fun _ => rfl

end Conditions

end Relabelled

end Table

/-! ## Translated stores -/

namespace MatchTree

variable (ρ : String → String)

mutual
theorem size_rename : ∀ t : MatchTree, (MatchTree.rename ρ t).size = t.size
  | .node value ts => by rw [rename_node, Rose.size, Rose.size, sizeList_rename ts]
theorem sizeList_rename : ∀ ts : List MatchTree, Rose.sizeList (ts.map (MatchTree.rename ρ)) = Rose.sizeList ts
  | [] => rfl
  | t :: ts => by rw [List.map_cons, Rose.sizeList, Rose.sizeList, size_rename t, sizeList_rename ts]
end

theorem rootsFrom_rename (ts : List MatchTree) (first : Nat) :
    Rose.rootsFrom first (ts.map (MatchTree.rename ρ)) = Rose.rootsFrom first ts := by
  induction ts generalizing first with
  | nil => rfl
  | cons t ts ih => rw [List.map_cons, Rose.rootsFrom, Rose.rootsFrom, size_rename, ih]

mutual
theorem entries_rename : ∀ (t : MatchTree) (parent : Option Nat) (id : Nat),
    entries parent id (MatchTree.rename ρ t) = (entries parent id t).map (Entry.rename ρ)
  | .node value ts, parent, id => by
      rw [rename_node, entries, entries, List.map_cons, entriesList_rename ts, rootsFrom_rename]
      rfl
theorem entriesList_rename : ∀ (ts : List MatchTree) (parent first : Nat),
    entriesList parent first (ts.map (MatchTree.rename ρ)) = (entriesList parent first ts).map (Entry.rename ρ)
  | [], _, _ => rfl
  | t :: ts, parent, first => by
      rw [List.map_cons, entriesList, entriesList, List.map_append, entries_rename t, entriesList_rename ts,
        size_rename]
end

theorem ofMatch_rename (t : MatchTree) : Tree.ofMatch (MatchTree.rename ρ t) = (Tree.ofMatch t).rename ρ := by
  rw [Tree.ofMatch_eq, Tree.ofMatch_eq, Tree.rename, entries_rename, List.map_toArray]

end MatchTree

namespace Match

open Table

/-- **Names and their order do not matter.** If `defect? = none` and `ρ` is injective on declared names, the
    relabelled table has `defect? = none`; every rule is found there by `indexOf? (ρ rule.name)`, the root and only
    the root at `0`, and from it every input gives the store renamed by `ρ`, or the same error. -/
theorem matchInput_relabelled {table table' : Table} {ρ : String → String} (hvalid : table.defect? = none)
    (hinj : Set.InjOn ρ {name | table.Defines name}) (h : table.Relabelled ρ table') :
    table'.defect? = none ∧
    ∀ index rule, table.ruleAt? index = some rule →
      ∃ index', table'.indexOf? (ρ rule.name) = some index' ∧
        table'.ruleAt? index' = some (rule.rename ρ) ∧ (index' = 0 ↔ index = 0) ∧
        ∀ input settings,
          (matchInput table' index' input settings).map Tree.ofMatch
            = (matchInput table index input settings).map fun found => (Tree.ofMatch found).rename ρ := by
  have hmeets := defect?_eq_none_iff_meets.mp hvalid
  refine ⟨defect?_eq_none_iff_meets.mpr (h.meets hmeets hinj), ?_⟩
  intro index rule hrule
  obtain ⟨index', hindex', hcounterpart⟩ := h.exists_counterpart hmeets hinj hrule
  have hrule' : table'.ruleAt? index' = some (rule.rename ρ) := by
    obtain ⟨same, hsame, hrule'⟩ := hcounterpart
    cases hrule.symm.trans hsame
    exact hrule'
  refine ⟨index', hindex', hrule', h.counterpart_zero_iff hmeets hinj hcounterpart, fun input settings => ?_⟩
  rw [matchInput_mirrored (h.mirror hmeets hinj input) hcounterpart settings]
  cases hresult : matchInput table index input settings with
  | ok found => exact congrArg Except.ok (MatchTree.ofMatch_rename ρ found)
  | error error =>
      have hlocation : relocate input error = error := by
        rw [relocate, ← matchInput_location hresult]
      exact congrArg Except.error hlocation

/-- `list := item ("," item)*`, `item := "x" | group` and `group := "(" item ")"`. -/
def itemTable : Table :=
  ⟨[⟨"list", .seq [.ref "item", .rep (.seq [.literal ",", .ref "item"])]⟩,
    ⟨"item", .choice [.literal "x", .ref "group"]⟩,
    ⟨"group", .seq [.literal "(", .ref "item", .literal ")"]⟩]⟩

/-- `itemTable` with the last two rules in the other order and their names exchanged. -/
def exchangedTable : Table :=
  ⟨[⟨"list", .seq [.ref "group", .rep (.seq [.literal ",", .ref "group"])]⟩,
    ⟨"item", .seq [.literal "(", .ref "group", .literal ")"]⟩,
    ⟨"group", .choice [.literal "x", .ref "item"]⟩]⟩

/-- The theorem where two names are exchanged: `group` stands for what was `item`, at another index. -/
theorem matchInput_relabelled_exchanged :
    itemTable.defect? = none ∧ exchangedTable.defect? = none ∧
    (∃ found, matchInput itemTable 1 (.ofString "(x)") {} = .ok found ∧
      (matchInput exchangedTable 2 (.ofString "(x)") {}).map Tree.ofMatch
        = .ok ((Tree.ofMatch found).rename (Equiv.swap "item" "group"))) ∧
    (matchInput exchangedTable 2 (.ofString "(y)") {}).map Tree.ofMatch = .error
      { kind := .noMatch, position := 1, location := some ⟨0, 1⟩, expected := ["\"x\"", "\"(\""],
        found := some "y" } := by
  have hvalid : itemTable.defect? = none := by decide
  have hrelabelled : itemTable.Relabelled (Equiv.swap "item" "group") exchangedTable := by
    refine ⟨[itemTable.rules[0], itemTable.rules[2], itemTable.rules[1]], ?_, rfl, by decide⟩
    exact (List.Perm.swap _ _ []).cons _
  obtain ⟨hvalid', hresults⟩ := matchInput_relabelled hvalid (Equiv.injective _).injOn hrelabelled
  obtain ⟨index', hindex', _, _, hresult⟩ := hresults 1 _ rfl
  cases hindex'.symm.trans (show _ = some 2 by decide)
  refine ⟨hvalid, hvalid', ⟨_, rfl, hresult (.ofString "(x)") {}⟩, ?_⟩
  exact hresult (.ofString "(y)") {}

end Match

end PegTree
