import Mathlib.Algebra.Order.BigOperators.Group.List
import PegTree.Parser
import PegTree.Proofs.Conformance
import PegTree.Proofs.Lookups

/-!
# `Proofs.Guarantees` — what the checks on a table are worth when it parses

A parser is built only from a table that has rules and no defects. What was checked once, on the patterns,
then holds at every step of every match and at every node of every tree.

* **Every lookup succeeds** (`Match.resolves_of_meets`, from `Proofs.Lookups`), before the limit and behind it.
* **Every node comes from a pattern** (`Conforms.within`, `MatchTree.Grammatical.mentioned`): below the root,
  `node.kind.pattern` is within the pattern of a rule, so the conditions on references and literals are conditions on
  nodes. The root is the one node that nothing refers to.
* **Leaves take up room** (`MatchTree.Exact.length_leafValues_le`): `value ≠ ""` makes `span.start < span.stop`.

`Parser.Built.guarantees` puts this together for `Parser.ofText` and `Parser.ofTable`, `parse` and `parseRule`.
-/

namespace PegTree

open Text

/-! ## Where nodes come from -/

/-- The pattern that a node matches: `.ref name` for a rule, `.literal value` for a literal. -/
def NodeKind.pattern : NodeKind → Pattern
  | .rule name => .ref name
  | .literal value => .literal value

theorem NodeKind.pattern_ne_seq (kind : NodeKind) (ps : List Pattern) : kind.pattern ≠ .seq ps := by
  cases kind <;> exact nofun

/-- **Nodes that conform to `p` stand in `p`**: their `kind.pattern` is `Within p`. -/
theorem Conforms.within {p : Pattern} {nodes : List Node} (h : Conforms p nodes) {node : Node}
    (hnode : node ∈ nodes) : node.kind.pattern.Within p := by
  induction h with
  | literal =>
      rw [List.mem_singleton.mp hnode]
      exact .here
  | ref =>
      rw [List.mem_singleton.mp hnode]
      exact .here
  | seqNil => exact absurd hnode List.not_mem_nil
  | seqCons _ _ ih₁ ih₂ =>
      rcases List.mem_append.mp hnode with hhead | htail
      · exact .seq List.mem_cons_self (ih₁ hhead)
      · exact (ih₂ htail).seq_cons (node.kind.pattern_ne_seq _)
  | choice hmem _ ih => exact .choice hmem (ih hnode)
  | optNone => exact absurd hnode List.not_mem_nil
  | optSome _ ih => exact .opt (ih hnode)
  | repDone => exact absurd hnode List.not_mem_nil
  | repMore _ _ _ ih₁ ih₂ =>
      rcases List.mem_append.mp hnode with hround | hrest
      · exact .rep (ih₁ hround)
      · exact ih₂ hrest

/-- `q` is `Within` the pattern of some rule. -/
def Table.Mentions (table : Table) (q : Pattern) : Prop :=
  ∃ rule ∈ table.rules, q.Within rule.pattern

/-- `Mentions` passes from the root of a `Grammatical` tree to every `Rose.Sub`. -/
theorem MatchTree.Grammatical.mentioned {table : Table} {s t : MatchTree} (hsub : Rose.Sub s t)
    (h : Grammatical table t) (hroot : table.Mentions t.value.kind.pattern) :
    table.Mentions s.value.kind.pattern := by
  induction hsub with
  | refl => exact hroot
  | child hmem _ ih =>
      cases h with
      | literal => exact absurd hmem List.not_mem_nil
      | rule hfirst hconforms hts =>
          exact ih (hts _ hmem) ⟨_, hfirst.mem, hconforms.within (List.mem_map_of_mem hmem)⟩

/-! ## Literals that are not empty -/

namespace Input.Spells

variable {input : Input} {span : Span} {value : String}

/-- `Spells` with `value ≠ ""` makes the span at least one unit long. -/
theorem start_lt_stop (h : input.Spells span value) (hvalue : value ≠ "") : span.start < span.stop := by
  cases input with
  | text chars =>
      obtain ⟨hstop, _⟩ := h
      have hlength : value.length ≠ 0 := mt String.length_eq_zero_iff.mp hvalue
      omega
  | tokens items =>
      obtain ⟨hstop, _⟩ := h
      omega

/-- The same condition keeps the span inside the input, which an empty literal need not do. -/
theorem stop_le_size (h : input.Spells span value) (hvalue : value ≠ "") : span.stop ≤ input.size := by
  cases input with
  | text chars =>
      obtain ⟨hstop, hchars⟩ := h
      have hlength : value.length ≠ 0 := mt String.length_eq_zero_iff.mp hvalue
      have htaken := congrArg List.length hchars
      rw [List.length_take, List.length_drop, String.length_toList, Array.length_toList] at htaken
      show span.stop ≤ chars.size
      omega
  | tokens items =>
      obtain ⟨hstop, hitem⟩ := h
      have hlt : span.start < items.size := (Array.getElem?_eq_some_iff.mp hitem).1
      show span.stop ≤ items.size
      omega

end Input.Spells

/-- `xs.length ≤ (xs.flatMap f).length` if no `f x` is empty. -/
theorem length_le_length_flatMap {α β : Type} {f : α → List β} {xs : List α} (h : ∀ x ∈ xs, f x ≠ []) :
    xs.length ≤ (xs.flatMap f).length := by
  have hlengths : ∀ n ∈ xs.map fun x => (f x).length, 1 ≤ n := by
    intro n hn
    obtain ⟨x, hx, rfl⟩ := List.mem_map.mp hn
    exact List.length_pos_iff.mpr (h x hx)
  calc xs.length
      = (xs.map fun x => (f x).length).length := (List.length_map _).symm
    _ ≤ (xs.map fun x => (f x).length).sum := List.length_le_sum_of_one_le _ hlengths
    _ = (xs.flatMap f).length := List.length_flatMap.symm

namespace MatchTree

/-- **At most one leaf for each unit**: `leafValues.length ≤ input.size` if no leaf is empty and the tree has the
    span `⟨0, input.size⟩`. -/
theorem Exact.length_leafValues_le {input : Input} {t : MatchTree} (h : Exact input t)
    (hspan : t.value.span = ⟨0, input.size⟩) (hfilled : ∀ value ∈ t.leafValues, value ≠ "") :
    t.leafValues.length ≤ input.size := by
  cases input with
  | text chars =>
      have hchars := h.flatMap_leafValues fun _ _ hspells => hspells.toList
      rw [hspan, Input.slice_whole] at hchars
      calc t.leafValues.length
          ≤ (t.leafValues.flatMap String.toList).length :=
            length_le_length_flatMap fun value hvalue => mt String.toList_eq_nil_iff.mp (hfilled value hvalue)
        _ = chars.size := by
            rw [hchars]
            simp [Input.units, List.flatMap_map]
  | tokens items =>
      rw [h.leafValues_tokens, hspan, Input.slice_whole, Input.length_units]

theorem length_leaves_visits (t : MatchTree) (parent : Option Nat) (id : Nat) :
    (visits parent id t).leaves.length = t.leafValues.length := by
  have hliterals : ∀ visit ∈ (visits parent id t).leaves, visit.literal?.isSome = true := by
    intro visit hvisit
    exact (List.mem_filter.mp hvisit).2
  rw [← leaves_visits t parent id, List.length_filterMap_eq_countP, List.countP_eq_length.mpr hliterals]

end MatchTree

/-! ## The store -/

/-- An entry `.literal value` of the store of an `Exact` tree has `Spells entry.span value`. -/
theorem MatchTree.Exact.spells_of_get? {input : Input} {t : MatchTree} (h : Exact input t) {id : Nat}
    {entry : Entry} {value : String} (hentry : (Tree.ofMatch t).get? id = some entry)
    (hkind : entry.kind = .literal value) : input.Spells entry.span value := by
  obtain ⟨above, ⟨node, us⟩, hsub, hs⟩ := exists_placed_ofMatch (Tree.get?_lt_size hentry)
  cases hs.node.1.symm.trans hentry
  cases h.sub hsub with
  | literal hspells =>
      cases hkind
      exact hspells
  | rule _ _ => cases hkind

namespace Match

variable {table : Table} {input : Input} {settings : Settings} {index : Nat} {found : MatchTree} {rule : Rule}

/-- The tree of an accepted input is `.rule rule.name` over nodes that `Mentions` holds of, at every depth. -/
theorem matchInput_mentions (h : matchInput table index input settings = .ok found)
    (hrule : table.ruleAt? index = some rule) :
    ∃ span ts, found = .node ⟨.rule rule.name, span⟩ ts ∧
      ∀ t ∈ ts, ∀ s, Rose.Sub s t → table.Mentions s.value.kind.pattern := by
  obtain ⟨rule', span, ts, hrule', rfl, hconforms, hbelow⟩ := matchInput_grammatical h
  cases hrule.symm.trans hrule'
  refine ⟨span, ts, rfl, fun t ht s hsub => ?_⟩
  have hchild := hconforms.within (List.mem_map_of_mem ht)
  exact (hbelow t ht).mentioned hsub ⟨rule, Table.ruleAt?_mem hrule, hchild⟩

/-- An entry is `.rule rule.name` at `0`, or `id ≠ 0` and the table `Mentions` its pattern. -/
theorem root_or_mentioned (h : matchInput table index input settings = .ok found)
    (hrule : table.ruleAt? index = some rule) {id : Nat} {entry : Entry}
    (hentry : (Tree.ofMatch found).get? id = some entry) :
    (id = 0 ∧ entry.kind = .rule rule.name) ∨ (id ≠ 0 ∧ table.Mentions entry.kind.pattern) := by
  obtain ⟨span, ts, rfl, hmentions⟩ := matchInput_mentions h hrule
  by_cases hid : id = 0
  · subst hid
    cases (MatchTree.placed_ofMatch _).node.1.symm.trans hentry
    exact Or.inl ⟨rfl, rfl⟩
  · obtain ⟨_, s, t, ht, hsub, _, hvalue⟩ := MatchTree.exists_placed_below hid hentry
    refine Or.inr ⟨hid, ?_⟩
    rw [hvalue]
    exact hmentions t ht s hsub

theorem mentions_of_mem_leafValues (h : matchInput table index input settings = .ok found)
    (hrule : table.ruleAt? index = some rule) {value : String} (hvalue : value ∈ found.leafValues) :
    table.Mentions (.literal value) := by
  obtain ⟨span, ts, rfl, hmentions⟩ := matchInput_mentions h hrule
  obtain ⟨node, hnode, hliteral⟩ := List.mem_filterMap.mp hvalue
  rcases List.mem_cons.mp hnode with rfl | hbelow
  · cases hliteral
  · obtain ⟨t, ht, hvalue⟩ := Rose.mem_preorderList_iff.mp hbelow
    obtain ⟨s, hsub, rfl⟩ := Rose.exists_sub t hvalue
    have hmention := hmentions t ht s hsub
    cases hkind : s.value.kind with
    | rule name =>
        rw [hkind] at hliteral
        cases hliteral
    | literal text =>
        rw [hkind] at hliteral hmention
        cases hliteral
        exact hmention

end Match

/-! ## Parsers -/

namespace Parser

variable {parser : Parser}

/-- **The parsers there are**: those of `ofText` and those of `ofTable`. -/
inductive Built : Parser → Prop where
  | ofText {grammar settings parser} : ofText grammar settings = .ok parser → Built parser
  | ofTable {table settings parser} : ofTable table settings = .ok parser → Built parser

theorem ofTable_eq_ok {table : Table} {settings : Settings} (h : ofTable table settings = .ok parser) :
    parser.table = table ∧ table.rules ≠ [] ∧ table.defect? = none := by
  unfold ofTable at h
  split at h
  · cases h
  · rename_i hrules
    split at h
    · cases h
    · rename_i hdefect
      cases h
      exact ⟨rfl, fun hnil => hrules (List.isEmpty_iff.mpr hnil), hdefect⟩

/-- However a parser was built, its table has rules and `Meets` every condition. -/
theorem Built.checked (h : parser.Built) :
    parser.table.rules ≠ [] ∧ ∀ condition, parser.table.Meets condition := by
  have hofTable : ∀ {table settings}, Parser.ofTable table settings = .ok parser →
      parser.table.rules ≠ [] ∧ ∀ condition, parser.table.Meets condition := by
    intro table settings hok
    obtain ⟨rfl, hrules, hdefect⟩ := ofTable_eq_ok hok
    exact ⟨hrules, Table.defect?_eq_none_iff_meets.mp hdefect⟩
  cases h with
  | ofText hok =>
      unfold Parser.ofText at hok
      split at hok
      · cases hok
      · exact hofTable hok
  | ofTable hok => exact hofTable hok

/-- `rootRule` is the name of `root?`, which stands at index `0`. -/
theorem Built.root (h : parser.Built) :
    ∃ root, parser.table.root? = some root ∧ parser.rootRule = root.name ∧
      parser.table.indexOf? parser.rootRule = some 0 := by
  obtain ⟨root, rest, hrules⟩ := List.exists_cons_of_ne_nil h.checked.1
  have hroot : parser.table.root? = some root := by rw [Table.root?, hrules, List.head?_cons]
  have hname : parser.rootRule = root.name := by rw [rootRule, hroot]; rfl
  refine ⟨root, hroot, hname, ?_⟩
  rw [Table.indexOf?, hname, hrules, List.findIdx?_cons, beq_self_eq_true]
  rfl

/-- **What is assured of a tree** when parsing started at the rule `start`. -/
structure Assured (parser : Parser) (start : String) (input : Input) (tree : Tree) : Prop where
  /-- The entry at `0` is `.rule start`. -/
  root : ∃ root, tree.get? 0 = some root ∧ root.kind = .rule start
  /-- Every rule name is declared. -/
  declared : ∀ id entry name, tree.get? id = some entry → entry.kind = .rule name →
    parser.table.Defines name
  /-- `rootRule` names the entry at `0` if parsing started there, and no other. -/
  rootRule_iff : ∀ id entry, tree.get? id = some entry →
    (entry.kind = .rule parser.rootRule ↔ id = 0 ∧ start = parser.rootRule)
  /-- Literals are not empty, and `Spells` holds of their spans, which lie in the input and cover a unit. -/
  literal : ∀ id entry value, tree.get? id = some entry → entry.kind = .literal value →
    value ≠ "" ∧ input.Spells entry.span value ∧ entry.Covers ∧ entry.span.stop ≤ input.size
  /-- The view from `0` has at most `input.size` leaves. -/
  leaves : ∃ view, tree.view? 0 = some view ∧ view.leaves.length ≤ input.size

theorem parseFrom_eq_ok {index : Nat} {input : Input} {tree : Tree}
    (h : parser.parseFrom index input = .ok tree) :
    ∃ found, Match.matchInput parser.table index input parser.settings = .ok found ∧
      tree = Tree.ofMatch found := by
  unfold parseFrom at h
  cases hfound : Match.matchInput parser.table index input parser.settings with
  | error error =>
      rw [hfound] at h
      cases h
  | ok found =>
      rw [hfound] at h
      cases h
      exact ⟨found, rfl, rfl⟩

/-- The condition on literals, for every literal that the table `Mentions`. -/
theorem Built.ne_empty (h : parser.Built) {value : String} (hvalue : parser.table.Mentions (.literal value)) :
    value ≠ "" := by
  rintro rfl
  obtain ⟨rule, hmem, hwithin⟩ := hvalue
  exact h.checked.2 .literalsFilled rule hmem hwithin

/-- **Accepted trees are assured**, from any declared rule. -/
theorem Built.assured (h : parser.Built) {start : String} {input : Input} {tree : Tree}
    (hstart : parser.table.Defines start) (hok : parser.parseRule start input = .ok tree) :
    parser.Assured start input tree := by
  obtain ⟨index, rule, hindex, hrule, rfl⟩ := hstart.indexOf?
  rw [parseRule, hindex] at hok
  obtain ⟨found, hfound, rfl⟩ := parseFrom_eq_ok hok
  obtain ⟨hspan, hexact⟩ := Match.matchInput_exact hfound
  have hplaced := MatchTree.placed_ofMatch found
  refine ⟨?_, ?_, ?_, ?_, ?_⟩
  · obtain ⟨span, ts, rfl, _⟩ := Match.matchInput_mentions hfound hrule
    exact ⟨_, hplaced.node.1, rfl⟩
  · -- the root was asked for, and any other rule was referred to
    intro id entry name hentry hkind
    rcases Match.root_or_mentioned hfound hrule hentry with ⟨_, hroot⟩ | ⟨_, hmentions⟩
    · cases hkind.symm.trans hroot
      exact hstart
    · rw [hkind] at hmentions
      obtain ⟨other, hmem, hwithin⟩ := hmentions
      exact h.checked.2 .referencesDeclared other hmem name hwithin
  · -- no rule refers to the root rule, so it cannot stand below the root
    intro id entry hentry
    obtain ⟨root, hroot, hname, _⟩ := h.root
    rcases Match.root_or_mentioned hfound hrule hentry with ⟨hid, hkind⟩ | ⟨hid, hmentions⟩
    · rw [hkind]
      simp [hid]
    · refine ⟨fun hkind => ?_, fun hboth => absurd hboth.1 hid⟩
      rw [hkind, hname] at hmentions
      obtain ⟨other, hmem, hwithin⟩ := hmentions
      exact absurd hwithin (h.checked.2 .rootUnreferenced root hroot other hmem)
  · -- a literal is not the root, so it was written down
    intro id entry value hentry hkind
    have hspells := hexact.spells_of_get? hentry hkind
    have hfilled : value ≠ "" := by
      rcases Match.root_or_mentioned hfound hrule hentry with ⟨_, hroot⟩ | ⟨_, hmentions⟩
      · cases hkind.symm.trans hroot
      · rw [hkind] at hmentions
        exact h.ne_empty hmentions
    exact ⟨hfilled, hspells, hspells.start_lt_stop hfilled, hspells.stop_le_size hfilled⟩
  · refine ⟨_, hplaced.view?_eq, ?_⟩
    rw [MatchTree.length_leaves_visits]
    refine hexact.length_leafValues_le hspan fun value hvalue => ?_
    exact h.ne_empty (Match.mentions_of_mem_leafValues hfound hrule hvalue)

/-- **What was checked holds of every parse.** For every `parser.Built`: `parser.rootRule` is declared, and `parse` is
    `parseRule` from it. From every declared `start`, on every `input`, `Match.Resolves` says that no lookup of the
    match fails, those behind the limit included, and every tree that `parseRule` returns is `Assured`. -/
theorem Built.guarantees (h : parser.Built) (input : Input) :
    parser.table.Defines parser.rootRule ∧
    parser.parse input = parser.parseRule parser.rootRule input ∧
    ∀ start, parser.table.Defines start →
      (∃ index, parser.table.indexOf? start = some index ∧
        Match.Resolves parser.table input parser.settings index) ∧
      ∀ tree, parser.parseRule start input = .ok tree → parser.Assured start input tree := by
  obtain ⟨root, hroot, hname, hindex⟩ := h.root
  refine ⟨⟨root, List.mem_of_mem_head? hroot, hname.symm⟩, ?_, fun start hstart => ⟨?_, ?_⟩⟩
  · rw [parse, parseRule, hindex]
  · obtain ⟨index, _, hstartIndex, _⟩ := hstart.indexOf?
    exact ⟨index, hstartIndex, Match.resolves_of_meets (h.checked.2 .referencesDeclared) _ _ _⟩
  · exact fun tree hok => h.assured hstart hok

/-- `root := item*` and `item := "a" | "(" item ")"`. -/
def nestedTable : Table :=
  ⟨[⟨"root", .rep (.ref "item")⟩,
    ⟨"item", .choice [.literal "a", .seq [.literal "(", .ref "item", .literal ")"]]⟩]⟩

/-- The theorem for a parser of a text that parses tokens from a rule below the root. -/
theorem Built.guarantees_nestedTable :
    Parser.ofText "root := item*\nitem := \"a\" | \"(\" item \")\"" {} = .ok ⟨nestedTable, {}⟩ ∧
      nestedTable.Defines "item" ∧ Match.Resolves nestedTable (.ofTokens ["(", "a", ")"]) {} 1 ∧
      ∃ tree, Parser.parseRule ⟨nestedTable, {}⟩ "item" (.ofTokens ["(", "a", ")"]) = .ok tree ∧
        tree.size = 5 ∧ Assured ⟨nestedTable, {}⟩ "item" (.ofTokens ["(", "a", ")"]) tree := by
  have hparser : Parser.ofText "root := item*\nitem := \"a\" | \"(\" item \")\"" {}
      = .ok ⟨nestedTable, {}⟩ := by
    have hcompile : Grammar.compile "root := item*\nitem := \"a\" | \"(\" item \")\"" = .ok nestedTable := by
      decide
    have hvalid : nestedTable.defect? = none := by decide
    rw [Parser.ofText, hcompile]
    simp only [Parser.ofTable, hvalid]
    rfl
  have hitem : nestedTable.Defines "item" := Table.contains_iff_defines.mp (by decide)
  obtain ⟨tree, htree, hsize⟩ : ∃ tree,
      Parser.parseRule ⟨nestedTable, {}⟩ "item" (.ofTokens ["(", "a", ")"]) = .ok tree ∧ tree.size = 5 :=
    ⟨_, rfl, by decide⟩
  obtain ⟨_, _, hparses⟩ := Built.guarantees (.ofText hparser) (.ofTokens ["(", "a", ")"])
  obtain ⟨⟨index, hindex, hresolves⟩, htrees⟩ := hparses "item" hitem
  cases hindex
  exact ⟨hparser, hitem, hresolves, tree, htree, hsize, htrees tree htree⟩

end Parser

end PegTree
