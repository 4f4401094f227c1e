import PegTree.Proofs.RuleGraph

/-!
# `Proofs.Defects` — a table has a defect exactly when a condition fails

The five conditions on a table are stated on their own (`Table.Meets`), with no regard to how they are
checked, and so is what the report about each of them must name (`Table.Blames`). A check finds nothing
exactly when its condition is met, and what it finds is what is to blame; the checks are tried in the order
of the conditions. Hence the defect of a table is about the first condition that fails.
-/

namespace PegTree

/-! ## Conditions -/

/-- What a table must meet, in the order in which `Table.defect?` checks it. -/
inductive Condition where
  /-- No `Pattern.literal ""`. -/
  | literalsFilled
  /-- No two rules of one name. -/
  | namesDistinct
  /-- No `Pattern.ref name` without a rule `name`. -/
  | referencesDeclared
  /-- No reference to the name of `Table.root?`. -/
  | rootUnreferenced
  /-- `Table.LeadsTo` from the root to every other rule. -/
  | rulesReached
  deriving DecidableEq, Repr

/-- Conditions in order: `c` is checked before `c'` when `c.place < c'.place`. -/
def Condition.place : Condition → Nat
  | .literalsFilled => 0
  | .namesDistinct => 1
  | .referencesDeclared => 2
  | .rootUnreferenced => 3
  | .rulesReached => 4

/-- `defect.violates` is the condition that fails where `defect` is reported. -/
def Defect.violates : Defect → Condition
  | .emptyLiteral _ => .literalsFilled
  | .duplicateRule _ => .namesDistinct
  | .orphan _ _ => .referencesDeclared
  | .usedRoot _ _ => .rootUnreferenced
  | .unused _ => .rulesReached

namespace Table

variable {table : Table}

/-- `table.Defines name`: some `rule ∈ table.rules` has `rule.name = name`. -/
def Defines (table : Table) (name : String) : Prop :=
  ∃ rule ∈ table.rules, rule.name = name

/-- **`table.Meets condition`**, over the rules and `Pattern.Within`, without the searches of `Table.defect?`. -/
def Meets (table : Table) : Condition → Prop
  | .literalsFilled => ∀ rule ∈ table.rules, ¬ (Pattern.literal "").Within rule.pattern
  | .namesDistinct => (table.rules.map (·.name)).Nodup
  | .referencesDeclared =>
    ∀ rule ∈ table.rules, ∀ name, (Pattern.ref name).Within rule.pattern → table.Defines name
  | .rootUnreferenced =>
    ∀ root, table.root? = some root →
      ∀ rule ∈ table.rules, ¬ (Pattern.ref root.name).Within rule.pattern
  | .rulesReached =>
    ∀ root rest, table.rules = root :: rest → ∀ rule ∈ rest, table.LeadsTo root.name rule.name

/-- **`table.Blames defect`**: the names in `defect` are those of the `First` rule that breaks `defect.violates`; of
    `.orphan`, also the `First` undeclared name among `rule.pattern.references`; of `.duplicateRule`, the first name
    that stands before itself. -/
inductive Blames (table : Table) : Defect → Prop where
  | emptyLiteral {rule} : First (fun r => (Pattern.literal "").Within r.pattern) table.rules rule →
      Blames table (.emptyLiteral rule.name)
  -- no name is repeated before
  | duplicateRule {before rule after} : table.rules = before ++ rule :: after →
      rule.name ∈ before.map (·.name) → (before.map (·.name)).Nodup →
      Blames table (.duplicateRule rule.name)
  | orphan {rule name} :
      First (fun r => ∃ n, (Pattern.ref n).Within r.pattern ∧ ¬ table.Defines n) table.rules rule →
      First (fun n => ¬ table.Defines n) rule.pattern.references name →
      Blames table (.orphan name rule.name)
  | usedRoot {root rule} : table.root? = some root →
      First (fun r => (Pattern.ref root.name).Within r.pattern) table.rules rule →
      Blames table (.usedRoot root.name rule.name)
  | unused {root rest rule} : table.rules = root :: rest →
      First (fun r => ¬ table.LeadsTo root.name r.name) rest rule → Blames table (.unused rule.name)

/-! ## Declared names -/

theorem ruleAt?_mem {index : Nat} {rule : Rule} (h : table.ruleAt? index = some rule) : rule ∈ table.rules :=
  List.mem_of_getElem? h

/-- `Table.indexOf?` finds every name that `table.Defines`, and `Table.ruleAt?` has a rule of that name there. -/
theorem Defines.indexOf? {name : String} (h : table.Defines name) :
    ∃ index rule, table.indexOf? name = some index ∧ table.ruleAt? index = some rule ∧ rule.name = name := by
  obtain ⟨declared, hmem, hname⟩ := h
  cases hindex : table.indexOf? name with
  | none =>
      have hnone := List.findIdx?_eq_none_iff.mp hindex declared hmem
      simp [hname] at hnone
  | some index =>
      obtain ⟨hlt, hrule, _⟩ := List.findIdx?_eq_some_iff_getElem.mp hindex
      exact ⟨index, _, rfl, List.getElem?_eq_getElem hlt, by simpa using hrule⟩

/-- Under `.namesDistinct`, `rule.name = rule'.name` at `i` and `j` only if `i = j`. -/
theorem ruleAt?_unique (hdistinct : table.Meets .namesDistinct) {i j : Nat} {rule rule' : Rule}
    (hi : table.ruleAt? i = some rule) (hj : table.ruleAt? j = some rule') (hname : rule.name = rule'.name) :
    i = j := by
  have hlt : i < (table.rules.map (·.name)).length := by
    rw [List.length_map]
    exact (List.getElem?_eq_some_iff.mp hi).1
  refine (List.getElem?_inj hlt hdistinct).mp ?_
  rw [List.getElem?_map, List.getElem?_map]
  unfold ruleAt? at hi hj
  rw [hi, hj, Option.map_some, Option.map_some, hname]

/-! ## Checks -/

theorem contains_iff_defines {name : String} : table.contains name = true ↔ table.Defines name := by
  simp only [contains, List.any_eq_true, beq_iff_eq, Defines]

theorem contains_literals_iff (rule : Rule) :
    rule.pattern.literals.contains "" = true ↔ (Pattern.literal "").Within rule.pattern := by
  rw [List.contains_iff_mem, Pattern.mem_literals_iff]

theorem contains_references_iff (name : String) (rule : Rule) :
    rule.pattern.references.contains name = true ↔ (Pattern.ref name).Within rule.pattern := by
  rw [List.contains_iff_mem, Pattern.mem_references_iff]

theorem emptyLiteral?_eq_none_iff : table.emptyLiteral? = none ↔ table.Meets .literalsFilled := by
  simp only [emptyLiteral?, Option.map_eq_none_iff, List.find?_eq_none, contains_literals_iff, Meets]

theorem emptyLiteral?_eq_some_iff {defect : Defect} :
    table.emptyLiteral? = some defect ↔
      ∃ rule, First (fun r => (Pattern.literal "").Within r.pattern) table.rules rule ∧
        .emptyLiteral rule.name = defect := by
  simp only [emptyLiteral?, Option.map_eq_some_iff, find?_eq_some_iff_first contains_literals_iff]

/-- `firstRepeated? seen names = none` iff `names` is duplicate-free and disjoint from `seen`. -/
theorem firstRepeated?_eq_none_iff {seen names : List String} :
    firstRepeated? seen names = none ↔ names.Nodup ∧ ∀ name ∈ names, name ∉ seen := by
  induction names generalizing seen with
  | nil => simp [firstRepeated?]
  | cons name names ih =>
      by_cases hseen : name ∈ seen
      · simp [firstRepeated?, hseen]
      · simp only [firstRepeated?, List.contains_iff_mem, hseen, if_false, ih, List.nodup_cons,
          List.mem_cons, not_or]
        grind

/-- `firstRepeated?` returns the `name` behind the longest `before` that is duplicate-free and disjoint from
    `seen`. -/
theorem firstRepeated?_eq_some_iff {seen names : List String} {name : String} :
    firstRepeated? seen names = some name ↔
      ∃ before after, names = before ++ name :: after ∧ (name ∈ seen ∨ name ∈ before) ∧
        before.Nodup ∧ ∀ x ∈ before, x ∉ seen := by
  induction names generalizing seen with
  | nil => simp [firstRepeated?]
  | cons first names ih =>
      rw [firstRepeated?]
      by_cases hseen : first ∈ seen
      · rw [if_pos (List.contains_iff_mem.mpr hseen)]
        constructor
        · rintro ⟨⟩
          exact ⟨[], names, rfl, Or.inl hseen, List.nodup_nil, fun _ h => absurd h List.not_mem_nil⟩
        · rintro ⟨before, after, hnames, _, _, hfresh⟩
          cases before with
          | nil => cases hnames; rfl
          | cons x before =>
              cases hnames
              exact absurd hseen (hfresh _ List.mem_cons_self)
      · rw [if_neg (fun h => hseen (List.contains_iff_mem.mp h)), ih]
        constructor
        · rintro ⟨before, after, rfl, hrepeated, hnodup, hfresh⟩
          refine ⟨first :: before, after, rfl, ?_, ?_, ?_⟩
          · grind
          · refine List.nodup_cons.mpr ⟨fun hmem => ?_, hnodup⟩
            exact hfresh first hmem List.mem_cons_self
          · grind
        · rintro ⟨before, after, hnames, hrepeated, hnodup, hfresh⟩
          cases before with
          | nil =>
              cases hnames
              exact absurd hrepeated (by simp [hseen])
          | cons x before =>
              cases hnames
              refine ⟨before, after, rfl, ?_, (List.nodup_cons.mp hnodup).2, ?_⟩
              · grind
              · intro y hy hmem
                rcases List.mem_cons.mp hmem with rfl | hmem
                · exact (List.nodup_cons.mp hnodup).1 hy
                · exact hfresh y (List.mem_cons_of_mem _ hy) hmem

theorem duplicate?_eq_none_iff : table.duplicate? = none ↔ table.Meets .namesDistinct := by
  simp [duplicate?, firstRepeated?_eq_none_iff, Meets]

theorem duplicate?_eq_some_iff {defect : Defect} :
    table.duplicate? = some defect ↔
      ∃ before rule after, table.rules = before ++ rule :: after ∧ rule.name ∈ before.map (·.name) ∧
        (before.map (·.name)).Nodup ∧ .duplicateRule rule.name = defect := by
  simp only [duplicate?, Option.map_eq_some_iff, firstRepeated?_eq_some_iff]
  constructor
  · rintro ⟨name, ⟨before, after, hnames, hrepeated, hnodup, _⟩, hdefect⟩
    obtain ⟨rules, rest, hrules, rfl, hrest⟩ := List.map_eq_append_iff.mp hnames
    obtain ⟨rule, rest, rfl, rfl, rfl⟩ := List.map_eq_cons_iff.mp hrest
    exact ⟨rules, rule, rest, hrules, hrepeated.resolve_left List.not_mem_nil, hnodup, hdefect⟩
  · rintro ⟨before, rule, after, hrules, hrepeated, hnodup, hdefect⟩
    refine ⟨rule.name, ⟨before.map (·.name), after.map (·.name), ?_, Or.inr hrepeated, hnodup,
      fun _ _ => List.not_mem_nil⟩, hdefect⟩
    rw [hrules, List.map_append, List.map_cons]

theorem find?_orphan_eq_none_iff (rule : Rule) :
    rule.pattern.references.find? (!table.contains ·) = none ↔
      ¬ ∃ name, (Pattern.ref name).Within rule.pattern ∧ ¬ table.Defines name := by
  simp only [List.find?_eq_none, Pattern.mem_references_iff, Bool.not_eq_true', not_exists, not_and,
    ← contains_iff_defines, Bool.not_eq_false, Bool.not_eq_true]

theorem orphan?_eq_none_iff : table.orphan? = none ↔ table.Meets .referencesDeclared := by
  simp only [orphan?, List.findSome?_eq_none_iff, Option.map_eq_none_iff, find?_orphan_eq_none_iff, Meets,
    not_exists, not_and, Classical.not_not]

theorem orphan?_eq_some_iff {defect : Defect} :
    table.orphan? = some defect ↔
      ∃ rule name,
        First (fun r => ∃ n, (Pattern.ref n).Within r.pattern ∧ ¬ table.Defines n) table.rules rule ∧
        First (fun n => ¬ table.Defines n) rule.pattern.references name ∧
        .orphan name rule.name = defect := by
  have hundeclared : ∀ name, (!table.contains name) = true ↔ ¬ table.Defines name := by
    intro name
    rw [← contains_iff_defines, Bool.not_eq_true', Bool.not_eq_true]
  simp only [orphan?, List.findSome?_eq_some_iff, Option.map_eq_some_iff, Option.map_eq_none_iff,
    find?_eq_some_iff_first hundeclared, find?_orphan_eq_none_iff]
  constructor
  · rintro ⟨before, rule, after, hrules, ⟨name, hfirst, hdefect⟩, hbefore⟩
    have hbad : ∃ n, (Pattern.ref n).Within rule.pattern ∧ ¬ table.Defines n :=
      ⟨name, Pattern.mem_references_iff.mp hfirst.mem, hfirst.1⟩
    exact ⟨rule, name, ⟨hbad, before, after, hrules, hbefore⟩, hfirst, hdefect⟩
  · rintro ⟨rule, name, ⟨_, before, after, hrules, hbefore⟩, hfirst, hdefect⟩
    exact ⟨before, rule, after, hrules, ⟨name, hfirst, hdefect⟩, hbefore⟩

theorem usedRoot?_eq_none_iff : table.usedRoot? = none ↔ table.Meets .rootUnreferenced := by
  simp only [usedRoot?, Option.bind_eq_none_iff, Option.map_eq_none_iff, List.find?_eq_none,
    contains_references_iff, Meets]

theorem usedRoot?_eq_some_iff {defect : Defect} :
    table.usedRoot? = some defect ↔
      ∃ root rule, table.root? = some root ∧
        First (fun r => (Pattern.ref root.name).Within r.pattern) table.rules rule ∧
        .usedRoot root.name rule.name = defect := by
  simp only [usedRoot?, Option.bind_eq_some_iff, Option.map_eq_some_iff,
    find?_eq_some_iff_first (contains_references_iff _), exists_and_left]

/-- `table.reachable` is `{name | table.LeadsTo root.name name}`, by `visits_reachable` and `Visits.mem_iff`. -/
theorem mem_reachable_iff {root : Rule} (hroot : table.root? = some root) {name : String} :
    name ∈ table.reachable ↔ table.LeadsTo root.name name :=
  (visits_reachable hroot).mem_iff

theorem unreached_iff {root : Rule} (hroot : table.root? = some root) (rule : Rule) :
    (!table.reachable.contains rule.name) = true ↔ ¬ table.LeadsTo root.name rule.name := by
  rw [← mem_reachable_iff hroot, Bool.not_eq_true', ← List.contains_iff_mem, Bool.not_eq_true]

theorem unused?_eq_none_iff : table.unused? = none ↔ table.Meets .rulesReached := by
  obtain ⟨rules⟩ := table
  cases rules with
  | nil => simp [unused?, Meets]
  | cons root rest =>
      have hroot : (⟨root :: rest⟩ : Table).root? = some root := rfl
      simp only [unused?, Option.map_eq_none_iff, List.tail_cons, List.find?_eq_none,
        unreached_iff hroot, Classical.not_not, Meets]
      constructor
      · rintro h _ _ ⟨⟩
        exact h
      · intro h
        exact h root rest rfl

theorem unused?_eq_some_iff {defect : Defect} :
    table.unused? = some defect ↔
      ∃ root rest rule, table.rules = root :: rest ∧
        First (fun r => ¬ table.LeadsTo root.name r.name) rest rule ∧ .unused rule.name = defect := by
  obtain ⟨rules⟩ := table
  cases rules with
  | nil => simp [unused?]
  | cons root rest =>
      have hroot : (⟨root :: rest⟩ : Table).root? = some root := rfl
      simp only [unused?, Option.map_eq_some_iff, List.tail_cons,
        find?_eq_some_iff_first (unreached_iff hroot)]
      constructor
      · rintro ⟨rule, hfirst, hdefect⟩
        exact ⟨root, rest, rule, rfl, hfirst, hdefect⟩
      · rintro ⟨_, _, rule, ⟨⟩, hfirst, hdefect⟩
        exact ⟨rule, hfirst, hdefect⟩

/-! ## All checks -/

/-- The search in `Table.defect?` that belongs to `condition`. -/
def check (table : Table) : Condition → Option Defect
  | .literalsFilled => table.emptyLiteral?
  | .namesDistinct => table.duplicate?
  | .referencesDeclared => table.orphan?
  | .rootUnreferenced => table.usedRoot?
  | .rulesReached => table.unused?

/-- **`table.check condition = none ↔ table.Meets condition`.** -/
theorem check_eq_none_iff (condition : Condition) :
    table.check condition = none ↔ table.Meets condition := by
  cases condition with
  | literalsFilled => exact emptyLiteral?_eq_none_iff
  | namesDistinct => exact duplicate?_eq_none_iff
  | referencesDeclared => exact orphan?_eq_none_iff
  | rootUnreferenced => exact usedRoot?_eq_none_iff
  | rulesReached => exact unused?_eq_none_iff

/-- Soundness of a check: what it returns violates its condition and is what `Table.Blames`. -/
theorem blames_of_check {condition : Condition} {defect : Defect}
    (h : table.check condition = some defect) : defect.violates = condition ∧ table.Blames defect := by
  cases condition with
  | literalsFilled =>
      obtain ⟨rule, hfirst, rfl⟩ := emptyLiteral?_eq_some_iff.mp h
      exact ⟨rfl, .emptyLiteral hfirst⟩
  | namesDistinct =>
      obtain ⟨before, rule, after, hrules, hrepeated, hnodup, rfl⟩ := duplicate?_eq_some_iff.mp h
      exact ⟨rfl, .duplicateRule hrules hrepeated hnodup⟩
  | referencesDeclared =>
      obtain ⟨rule, name, hrule, hname, rfl⟩ := orphan?_eq_some_iff.mp h
      exact ⟨rfl, .orphan hrule hname⟩
  | rootUnreferenced =>
      obtain ⟨root, rule, hroot, hfirst, rfl⟩ := usedRoot?_eq_some_iff.mp h
      exact ⟨rfl, .usedRoot hroot hfirst⟩
  | rulesReached =>
      obtain ⟨root, rest, rule, hrules, hfirst, rfl⟩ := unused?_eq_some_iff.mp h
      exact ⟨rfl, .unused hrules hfirst⟩

/-- Completeness: `table.Blames defect` has at most one solution for each condition, and `check` returns it. -/
theorem Blames.check_eq {defect : Defect} (h : table.Blames defect) :
    table.check defect.violates = some defect := by
  cases h with
  | emptyLiteral hfirst => exact emptyLiteral?_eq_some_iff.mpr ⟨_, hfirst, rfl⟩
  | duplicateRule hrules hrepeated hnodup =>
      exact duplicate?_eq_some_iff.mpr ⟨_, _, _, hrules, hrepeated, hnodup, rfl⟩
  | orphan hrule hname => exact orphan?_eq_some_iff.mpr ⟨_, _, hrule, hname, rfl⟩
  | usedRoot hroot hfirst => exact usedRoot?_eq_some_iff.mpr ⟨_, _, hroot, hfirst, rfl⟩
  | unused hrules hfirst => exact unused?_eq_some_iff.mpr ⟨_, _, _, hrules, hfirst, rfl⟩

theorem defect?_eq_or :
    table.defect? = (table.check .literalsFilled).or ((table.check .namesDistinct).or
      ((table.check .referencesDeclared).or ((table.check .rootUnreferenced).or
        (table.check .rulesReached)))) := by
  simp only [defect?, check, HOrElse.hOrElse, OrElse.orElse, Option.orElse_eq_or]

theorem defect?_eq_none_iff : table.defect? = none ↔ ∀ condition, table.check condition = none := by
  simp only [defect?_eq_or, Option.or_eq_none_iff]
  constructor
  · rintro ⟨h₀, h₁, h₂, h₃, h₄⟩ condition
    cases condition <;> assumption
  · intro h
    exact ⟨h _, h _, h _, h _, h _⟩

theorem defect?_eq_none_iff_meets : table.defect? = none ↔ ∀ condition, table.Meets condition := by
  rw [defect?_eq_none_iff]
  exact forall_congr' check_eq_none_iff

/-- `table.defect?` is the result of the check of least `place` that is not `none`. -/
theorem defect?_eq_some_iff {defect : Defect} :
    table.defect? = some defect ↔ ∃ condition, table.check condition = some defect ∧
      ∀ earlier : Condition, earlier.place < condition.place → table.check earlier = none := by
  simp only [defect?_eq_or, Option.or_eq_some_iff]
  constructor
  · rintro (h | ⟨h₀, h | ⟨h₁, h | ⟨h₂, h | ⟨h₃, h⟩⟩⟩⟩)
    · exact ⟨.literalsFilled, h, fun earlier hlt => absurd hlt (Nat.not_lt_zero _)⟩
    · refine ⟨.namesDistinct, h, fun earlier hlt => ?_⟩
      cases earlier <;> simp_all [Condition.place]
    · refine ⟨.referencesDeclared, h, fun earlier hlt => ?_⟩
      cases earlier <;> simp_all [Condition.place]
    · refine ⟨.rootUnreferenced, h, fun earlier hlt => ?_⟩
      cases earlier <;> simp_all [Condition.place]
    · refine ⟨.rulesReached, h, fun earlier hlt => ?_⟩
      cases earlier <;> simp_all [Condition.place]
  · rintro ⟨condition, h, hearlier⟩
    have h₀ := hearlier .literalsFilled
    have h₁ := hearlier .namesDistinct
    have h₂ := hearlier .referencesDeclared
    have h₃ := hearlier .rootUnreferenced
    cases condition <;> simp_all [Condition.place]

/-- **`Table.defect?` is exact.** `defect? = none` iff `Table.Meets` holds of every condition; `defect? = some
    defect` iff the conditions before `defect.violates` are met, `defect.violates` is not, and `Table.Blames defect`.
    For the search behind the last check: every state has a run `Table.Visits` to the empty stack, and from `root.name`
    it visits exactly `{name | table.LeadsTo root.name name}`. -/
theorem defect?_characterised (table : Table) :
    (table.defect? = none ↔ ∀ condition, table.Meets condition) ∧
    (∀ defect, table.defect? = some defect ↔
      (∀ earlier : Condition, earlier.place < defect.violates.place → table.Meets earlier) ∧
        ¬ table.Meets defect.violates ∧ table.Blames defect) ∧
    (∀ pending visited, ∃ result, table.Visits pending visited result) ∧
    (∀ root, table.root? = some root → table.Visits [root.name] [] table.reachable ∧
      ∀ name, name ∈ table.reachable ↔ table.LeadsTo root.name name) := by
  refine ⟨?_, fun defect => ?_, fun pending visited => ⟨_, visits_visit (Nat.le_refl _)⟩,
    fun root hroot => ⟨visits_reachable hroot, fun _ => mem_reachable_iff hroot⟩⟩
  · simp only [defect?_eq_none_iff, check_eq_none_iff]
  · simp only [defect?_eq_some_iff, check_eq_none_iff]
    constructor
    · rintro ⟨condition, hcheck, hearlier⟩
      obtain ⟨rfl, hblames⟩ := blames_of_check hcheck
      refine ⟨hearlier, fun hmeets => ?_, hblames⟩
      rw [← check_eq_none_iff, hcheck] at hmeets
      cases hmeets
    · rintro ⟨hearlier, _, hblames⟩
      exact ⟨_, hblames.check_eq, hearlier⟩

/-- `root := (b | c)*`; `b` and `c` refer to each other and `root` to both, `d` and `e` to each other and no other
    rule to them. -/
def islandTable : Table :=
  ⟨[⟨"root", .rep (.choice [.ref "b", .ref "c"])⟩, ⟨"b", .seq [.literal "x", .ref "c"]⟩,
    ⟨"c", .seq [.literal "y", .opt (.ref "b")]⟩, ⟨"d", .seq [.ref "d", .ref "e"]⟩,
    ⟨"e", .opt (.ref "d")⟩]⟩

theorem defect?_characterised_island :
    islandTable.defect? = some (.unused "d") ∧ islandTable.Meets .rootUnreferenced ∧
      islandTable.LeadsTo "root" "c" ∧ ¬ islandTable.LeadsTo "root" "d" := by
  have hdefect : islandTable.defect? = some (.unused "d") := by decide
  obtain ⟨_, hfirst, _, hreach⟩ := defect?_characterised islandTable
  have hleads := (hreach _ rfl).2
  exact ⟨hdefect, ((hfirst _).mp hdefect).1 _ (by decide), (hleads "c").mp (by decide),
    fun h => absurd ((hleads "d").mpr h) (by decide)⟩

end Table

end PegTree
