import PegTree.Proofs.Placement
import PegTree.Proofs.Production

/-!
# `Proofs.Coverage` — no unit is lost, none is taken twice

A tree *covers* its input exactly when spans fit together at every node: the children of a rule tile its
span, and a literal stands on the units it spells. Both are local conditions (`Exact`), every production
meets them (`Produces.exact`), and from them follows what a reader of the tree relies on: the text of any
node is the text of the units in its span (`Exact.flatMap_leafValues`).

`matchInput_covers` says this of every node of the store that an accepted input is turned into.
-/

namespace PegTree

open Text

/-! ## Units of an input -/

namespace Input

/-- The texts of all units, in order; a character of a text is a string of length one. -/
def units : Input → List String
  | .text chars => chars.toList.map fun c => String.ofList [c]
  | .tokens items => items.toList

def slice (input : Input) (span : Span) : List String :=
  (input.units.take span.stop).drop span.start

/-- **A literal stands on a span**: on `value.length` characters equal to those of `value`, or on the one token
    `value`. -/
def Spells : Input → Span → String → Prop
  | .text chars, span, value =>
    span.stop = span.start + value.length ∧
      (chars.toList.drop span.start).take value.length = value.toList
  | .tokens items, span, value =>
    span.stop = span.start + 1 ∧ items[span.start]? = some value

theorem length_units (input : Input) : input.units.length = input.size := by
  cases input with
  | text chars => simp [units, size]
  | tokens items => simp [units, size]

theorem slice_whole (input : Input) : input.slice ⟨0, input.size⟩ = input.units := by
  unfold slice
  rw [← length_units, List.take_length, List.drop_zero]

theorem slice_empty (input : Input) (pos : Nat) : input.slice ⟨pos, pos⟩ = [] := by
  unfold slice
  exact List.drop_eq_nil_of_le (List.length_take_le _ _)

theorem slice_append {input : Input} {pos mid stop : Nat} (hmid : pos ≤ mid) (hstop : mid ≤ stop) :
    input.slice ⟨pos, mid⟩ ++ input.slice ⟨mid, stop⟩ = input.slice ⟨pos, stop⟩ := by
  have hfirst : input.slice ⟨pos, mid⟩ = (input.slice ⟨pos, stop⟩).take (mid - pos) := by
    simp only [slice, List.drop_take, List.take_take]
    congr 1
    omega
  have hsecond : input.slice ⟨mid, stop⟩ = (input.slice ⟨pos, stop⟩).drop (mid - pos) := by
    simp only [slice, List.drop_drop]
    congr 1
    omega
  rw [hfirst, hsecond, List.take_append_drop]

theorem take_of_standsAt {chars : Array Char} {value : List Char} {pos : Nat}
    (h : standsAt chars pos value = true) : (chars.toList.drop pos).take value.length = value := by
  induction value generalizing pos with
  | nil => rfl
  | cons c value ih =>
      simp only [standsAt, Bool.and_eq_true, beq_iff_eq] at h
      obtain ⟨hlt, hc⟩ := Array.getElem?_eq_some_iff.mp h.1
      have hdrop : chars.toList.drop pos = c :: chars.toList.drop (pos + 1) := by
        rw [List.drop_eq_getElem_cons (by simpa using hlt), Array.getElem_toList, hc]
      rw [hdrop, List.length_cons, List.take_succ_cons, ih h.2]

/-- `matchLiteral? pos value = some stop` gives `Spells ⟨pos, stop⟩ value`. -/
theorem spells_of_matchLiteral? {input : Input} {pos stop : Nat} {value : String}
    (h : input.matchLiteral? pos value = some stop) : input.Spells ⟨pos, stop⟩ value := by
  cases input with
  | text chars =>
      simp only [matchLiteral?, Bool.and_eq_true, decide_eq_true_eq, Option.ite_none_right_eq_some,
        Option.some.injEq] at h
      obtain ⟨⟨_, hstands⟩, rfl⟩ := h
      rw [String.length_toList]
      refine ⟨rfl, ?_⟩
      rw [← String.length_toList]
      exact take_of_standsAt hstands
  | tokens items =>
      simp only [matchLiteral?, Option.ite_none_right_eq_some, Option.some.injEq] at h
      obtain ⟨hitem, rfl⟩ := h
      exact ⟨rfl, hitem⟩

theorem Spells.le {input : Input} {span : Span} {value : String} (h : input.Spells span value) :
    span.start ≤ span.stop := by
  cases input with
  | text chars => exact h.1 ▸ Nat.le_add_right _ _
  | tokens items => exact h.1 ▸ Nat.le_succ _

end Input

/-! ## Tilings -/

/-- Each span starts where the one before it stops, from `pos` to `stop`; without spans `pos = stop`. -/
def Tiles : (pos stop : Nat) → List Span → Prop
  | pos, stop, [] => pos = stop
  | pos, stop, span :: spans => span.start = pos ∧ Tiles span.stop stop spans

theorem Tiles.append {pos mid stop : Nat} {xs ys : List Span} (hxs : Tiles pos mid xs)
    (hys : Tiles mid stop ys) : Tiles pos stop (xs ++ ys) := by
  induction xs generalizing pos with
  | nil =>
      cases hxs
      exact hys
  | cons span xs ih => exact ⟨hxs.1, ih hxs.2⟩

theorem Tiles.le {pos stop : Nat} {spans : List Span} (h : Tiles pos stop spans)
    (hspans : ∀ span ∈ spans, span.start ≤ span.stop) : pos ≤ stop := by
  induction spans generalizing pos with
  | nil => exact Nat.le_of_eq h
  | cons span spans ih =>
      obtain ⟨rfl, htail⟩ := h
      have hrest := ih htail (fun s hs => hspans s (List.mem_cons_of_mem _ hs))
      exact Nat.le_trans (hspans span List.mem_cons_self) hrest

theorem Tiles.singleton (pos stop : Nat) : Tiles pos stop [⟨pos, stop⟩] := ⟨rfl, rfl⟩

/-! ## Trees that cover their input -/

namespace MatchTree

/-- **The tree covers its units exactly**: a literal `Spells` its span, and the spans of the children of a rule are
    `Tiles` of the rule's span. -/
inductive Exact (input : Input) : MatchTree → Prop where
  | literal {value span} : input.Spells span value → Exact input (.node ⟨.literal value, span⟩ [])
  | rule {name span ts} : Tiles span.start span.stop (ts.map (·.value.span)) →
      (∀ t ∈ ts, Exact input t) → Exact input (.node ⟨.rule name, span⟩ ts)

/-- `Exact` is inherited by every `Rose.Sub`. -/
theorem Exact.sub {input : Input} {s t : MatchTree} (hsub : Rose.Sub s t) (h : Exact input t) :
    Exact input s := by
  induction hsub with
  | refl => exact h
  | child hmem _ ih =>
      cases h with
      | literal _ => exact absurd hmem List.not_mem_nil
      | rule _ hts => exact ih (hts _ hmem)

theorem Exact.le {input : Input} {t : MatchTree} (h : Exact input t) :
    t.value.span.start ≤ t.value.span.stop := by
  induction h with
  | literal h => exact h.le
  | rule htiles _ ih => exact htiles.le (fun span hspan => by
      obtain ⟨t, ht, rfl⟩ := List.mem_map.mp hspan
      exact ih t ht)

/-- Texts of leaves that agree with `slice` at each of neighbours that tile `⟨pos, stop⟩` agree with it on
    `⟨pos, stop⟩`. -/
theorem flatMap_leafValues_of_tiles {γ : Type} {φ : String → List γ} {input : Input}
    {ts : List MatchTree} {pos stop : Nat} (htiles : Tiles pos stop (ts.map (·.value.span)))
    (hle : ∀ t ∈ ts, t.value.span.start ≤ t.value.span.stop)
    (hts : ∀ t ∈ ts, t.leafValues.flatMap φ = (input.slice t.value.span).flatMap φ) :
    ((Rose.preorderList ts).filterMap (·.kind.literal?)).flatMap φ
      = (input.slice ⟨pos, stop⟩).flatMap φ := by
  induction ts generalizing pos with
  | nil =>
      cases htiles
      rw [Input.slice_empty]
      rfl
  | cons t ts ih =>
      obtain ⟨rfl, htail⟩ := htiles
      have hmem : ∀ s ∈ ts, s ∈ t :: ts := fun s hs => List.mem_cons_of_mem _ hs
      have hrest := ih htail (fun s hs => hle s (hmem s hs)) (fun s hs => hts s (hmem s hs))
      have hstop : t.value.span.stop ≤ stop := htail.le (fun span hspan => by
        obtain ⟨s, hs, rfl⟩ := List.mem_map.mp hspan
        exact hle s (hmem s hs))
      rw [Rose.preorderList, List.filterMap_append, List.flatMap_append, hrest,
        ← Input.slice_append (hle t List.mem_cons_self) hstop, List.flatMap_append]
      exact congrArg (· ++ _) (hts t List.mem_cons_self)

/-- **The leaves of a tree make up the units of its span.** `φ` is the grain at which they are compared: characters
    for a text, whole tokens for a token list. -/
theorem Exact.flatMap_leafValues {γ : Type} {φ : String → List γ} {input : Input}
    (hφ : ∀ span value, input.Spells span value → φ value = (input.slice span).flatMap φ)
    {t : MatchTree} (h : Exact input t) :
    t.leafValues.flatMap φ = (input.slice t.value.span).flatMap φ := by
  induction h with
  | @literal value span h =>
      rw [Rose.value, ← hφ span value h]
      simp [leafValues, Rose.preorder, Rose.preorderList, NodeKind.literal?]
  | rule htiles hts ih => exact flatMap_leafValues_of_tiles htiles (fun t ht => (hts t ht).le) ih

end MatchTree

/-! ## Texts and tokens -/

namespace Input

theorem slice_text (chars : Array Char) (span : Span) :
    (Input.text chars).slice span
      = ((chars.toList.take span.stop).drop span.start).map fun c => String.ofList [c] := by
  simp only [slice, units, List.map_take, List.map_drop]

/-- The hypothesis `hφ` of `Exact.flatMap_leafValues` for a text, with `φ := String.toList`. -/
theorem Spells.toList {chars : Array Char} {span : Span} {value : String}
    (h : (Input.text chars).Spells span value) :
    value.toList = ((Input.text chars).slice span).flatMap String.toList := by
  obtain ⟨hstop, hvalue⟩ := h
  rw [slice_text, List.flatMap_map, hstop, List.drop_take, Nat.add_sub_cancel_left, hvalue]
  simp

/-- The same for tokens, with `φ := fun value => [value]`. -/
theorem Spells.token {items : Array String} {span : Span} {value : String}
    (h : (Input.tokens items).Spells span value) : (Input.tokens items).slice span = [value] := by
  obtain ⟨hstop, hvalue⟩ := h
  obtain ⟨hlt, rfl⟩ := Array.getElem?_eq_some_iff.mp hvalue
  simp only [slice, units, hstop, List.drop_take, Nat.add_sub_cancel_left]
  rw [List.drop_eq_getElem_cons (by simpa using hlt)]
  simp

end Input

namespace MatchTree

theorem Exact.leafValues_tokens {items : Array String} {t : MatchTree}
    (h : Exact (.tokens items) t) : t.leafValues = (Input.tokens items).slice t.value.span := by
  have hleaves := h.flatMap_leafValues (fun span value hspells => by
    rw [hspells.token]
    exact (List.flatMap_singleton (fun v => [v]) value).symm)
  simpa using hleaves

/-- `leafValues` and `slice` of the span need not be equal lists, as a literal of a text may have several
    characters, but they join to the same text. -/
theorem Exact.join_leafValues {input : Input} {t : MatchTree} (h : Exact input t) :
    String.join t.leafValues = String.join (input.slice t.value.span) := by
  cases input with
  | text chars =>
      apply String.toList_inj.mp
      rw [String.toList_join, String.toList_join]
      exact h.flatMap_leafValues fun _ _ hspells => hspells.toList
  | tokens items => rw [h.leafValues_tokens]

end MatchTree

namespace Match

open MatchTree

/-- **Every production covers what it matches**: its nodes tile `⟨pos, stop⟩`, and each is `Exact`. -/
theorem Produces.exact {table : Table} {input : Input} {p : Pattern} {pos stop : Nat}
    {nodes : List MatchTree} (h : Produces table input p pos stop nodes) :
    Tiles pos stop (nodes.map (·.value.span)) ∧ ∀ t ∈ nodes, Exact input t := by
  induction h with
  | literal h =>
      refine ⟨Tiles.singleton _ _, fun t ht => ?_⟩
      rw [List.mem_singleton.mp ht]
      exact .literal (Input.spells_of_matchLiteral? h)
  | ref _ _ _ ih =>
      refine ⟨Tiles.singleton _ _, fun t ht => ?_⟩
      rw [List.mem_singleton.mp ht]
      exact .rule ih.1 ih.2
  | seqNil => exact ⟨rfl, fun t ht => absurd ht List.not_mem_nil⟩
  | seqCons _ _ ih₁ ih₂ =>
      rw [List.map_append]
      exact ⟨ih₁.1.append ih₂.1, fun t ht => (List.mem_append.mp ht).elim (ih₁.2 t) (ih₂.2 t)⟩
  | choice _ _ ih => exact ih
  | optNone => exact ⟨rfl, fun t ht => absurd ht List.not_mem_nil⟩
  | optSome _ ih => exact ih
  | repDone => exact ⟨rfl, fun t ht => absurd ht List.not_mem_nil⟩
  | repMore _ _ _ ih₁ ih₂ =>
      rw [List.map_append]
      exact ⟨ih₁.1.append ih₂.1, fun t ht => (List.mem_append.mp ht).elim (ih₁.2 t) (ih₂.2 t)⟩

/-- The tree of an accepted input has the span `⟨0, input.size⟩` and is `Exact`. -/
theorem matchInput_exact {table : Table} {index : Nat} {input : Input} {settings : Settings}
    {tree : MatchTree} (h : matchInput table index input settings = .ok tree) :
    tree.value.span = ⟨0, input.size⟩ ∧ Exact input tree := by
  obtain ⟨rule, nodes, _, hnodes, rfl⟩ := matchInput_produces h
  obtain ⟨htiles, hexact⟩ := hnodes.exact
  exact ⟨rfl, .rule htiles hexact⟩

end Match

/-! ## The store -/

/-- **Coverage at one entry of the store.** The children of a rule tile its span, and a literal `Spells` its span;
    either way the text of the view is `slice` of the span, joined. -/
def Tree.CoversAt (tree : Tree) (input : Input) (id : Nat) (entry : Entry) : Prop :=
  (match entry.kind with
    | .rule _ => ∃ spans, entry.children.map (fun c => (tree.get? c).map (·.span)) = spans.map some ∧
        Tiles entry.span.start entry.span.stop spans
    | .literal value => entry.children = [] ∧ input.Spells entry.span value) ∧
  ∃ view, tree.view? id = some view ∧ view.text = String.join (input.slice entry.span)

/-- **Coverage of the whole input** by the text of a view, and for tokens by its very leaves. -/
def Rose.CoversAll (view : Rose Visit) : Input → Prop
  | .text chars => view.text = String.ofList chars.toList
  | .tokens items => view.text = String.join items.toList ∧
      view.leaves.filterMap (·.literal?) = items.toList

namespace MatchTree

/-- An `Exact` tree, once `Placed`, satisfies `CoversAt` at its place. -/
theorem Placed.coversAt {tree : Tree} {input : Input} {parent : Option Nat} {id : Nat} {t : MatchTree}
    {entry : Entry} (h : Placed tree parent id t) (hexact : Exact input t)
    (hentry : tree.get? id = some entry) : tree.CoversAt input id entry := by
  obtain ⟨value, ts⟩ := t
  obtain ⟨hget, hbelow⟩ := h.node
  cases hget.symm.trans hentry
  refine ⟨?_, _, h.view?_eq, ?_⟩
  · cases hexact with
    | literal hspells => exact ⟨rfl, hspells⟩
    | rule htiles _ =>
        refine ⟨ts.map (·.value.span), ?_, htiles⟩
        have hroots := congrArg (List.map (Option.map Node.span)) (get?_rootsFrom ts id (id + 1) hbelow)
        simpa only [List.map_map, Function.comp_def, Option.map_map, Option.map_some] using hroots
  · rw [text_visits, hexact.join_leafValues]
    rfl

/-- `visits` of an `Exact` tree with span `⟨0, input.size⟩` satisfies `CoversAll`. -/
theorem Exact.coversAll {input : Input} {t : MatchTree} (h : Exact input t)
    (hspan : t.value.span = ⟨0, input.size⟩) (parent : Option Nat) (id : Nat) :
    (visits parent id t).CoversAll input := by
  have htext : (visits parent id t).text = String.join input.units := by
    rw [text_visits, h.join_leafValues, hspan, Input.slice_whole]
  cases input with
  | text chars =>
      show (visits parent id t).text = String.ofList chars.toList
      rw [htext]
      apply String.toList_inj.mp
      simp [Input.units, String.toList_join, List.flatMap_map]
  | tokens items =>
      refine ⟨htext, ?_⟩
      rw [leaves_visits, h.leafValues_tokens, hspan, Input.slice_whole]
      rfl

end MatchTree

namespace Match

/-- **No unit is lost and none is taken twice.** In the store of an accepted input the root has the span
    `⟨0, input.size⟩`, every entry satisfies `CoversAt`, and the view from `0` satisfies `CoversAll`. -/
theorem matchInput_covers {table : Table} {index : Nat} {input : Input} {settings : Settings}
    {found : MatchTree} (h : matchInput table index input settings = .ok found) :
    (∃ root, (Tree.ofMatch found).get? 0 = some root ∧ root.span = ⟨0, input.size⟩) ∧
    (∀ id entry, (Tree.ofMatch found).get? id = some entry →
      (Tree.ofMatch found).CoversAt input id entry) ∧
    (∃ view, (Tree.ofMatch found).view? 0 = some view ∧ view.CoversAll input) := by
  obtain ⟨hspan, hexact⟩ := matchInput_exact h
  have hplaced := MatchTree.placed_ofMatch found
  refine ⟨?_, ?_, _, hplaced.view?_eq, hexact.coversAll hspan none 0⟩
  · obtain ⟨value, ts⟩ := found
    exact ⟨_, hplaced.node.1, hspan⟩
  · intro id entry hentry
    have hid : id < found.size := by
      rw [← MatchTree.size_ofMatch]
      exact Tree.get?_lt_size hentry
    obtain ⟨above, s, hsub, hs⟩ := MatchTree.exists_placed found none 0 hplaced id hid
    rw [Nat.zero_add] at hs
    exact hs.coversAt (hexact.sub hsub) hentry

/-- `root := ("a" "b" | "a")* tail?` and `tail := ""`: on `aab` the first round falls back on its second
    alternative, and the last node takes no unit. -/
def fallbackTable : Table :=
  ⟨[⟨"root", .seq [.rep (.choice [.seq [.literal "a", .literal "b"], .literal "a"]), .opt (.ref "tail")]⟩,
    ⟨"tail", .literal ""⟩]⟩

theorem matchInput_covers_fallback :
    ∃ found, matchInput fallbackTable 0 (.ofString "aab") {} = .ok found ∧ found.size = 6 ∧
      (∀ id entry, (Tree.ofMatch found).get? id = some entry →
        (Tree.ofMatch found).CoversAt (.ofString "aab") id entry) ∧
      ∃ view, (Tree.ofMatch found).view? 0 = some view ∧ view.text = "aab" := by
  have hok : ∃ found, matchInput fallbackTable 0 (.ofString "aab") {} = .ok found ∧ found.size = 6 :=
    ⟨_, rfl, by decide⟩
  obtain ⟨found, hfound, hsize⟩ := hok
  obtain ⟨_, hnodes, view, hview, hall⟩ := matchInput_covers hfound
  exact ⟨found, hfound, hsize, hnodes, view, hview, hall.trans (by decide)⟩

end Match

end PegTree
