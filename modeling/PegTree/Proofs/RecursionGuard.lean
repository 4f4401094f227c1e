import Mathlib.Data.List.Nodup
import PegTree.Proofs.Defects
import PegTree.Proofs.DepthLimit
import PegTree.Proofs.Numbering

/-!
# `Proofs.RecursionGuard` — the guard against left recursion shows in the tree

The guard is a list of calls that grows and shrinks while the engine runs, and the tree is what is left when all of
them have returned. Still the tree shows the guard: the rules on any path from the root down were once active
together, each called from inside the one above it (`Traced`). What holds of every list of active calls, that no call
is there twice, and that none is deeper than the limit allows, therefore holds of every path.

* `Runs.traced` — along any run, by induction on it. Whatever is tried and given up leaves no node, so only the calls
  that enclose a node matter.
* `matchInput_traced` — for whole inputs.
* `Tree.Faithful.climb_path` — paths of a view are the ways up of the store, turned around.

`matchInput_guarded` says it of the store.
-/

namespace PegTree

namespace Match

variable {table : Table} {input : Input}

/-! ## Paths and calls -/

def Verdict.nodes : Verdict → List MatchTree
  | .matched _ nodes => nodes
  | .failed => []

theorem Verdict.mem_nodes_prepend {verdict : Verdict} {before : List MatchTree} {t : MatchTree}
    (h : t ∈ (verdict.prepend before).nodes) : t ∈ before ∨ t ∈ verdict.nodes := by
  cases verdict with
  | matched stop nodes => exact List.mem_append.mp h
  | failed => exact absurd h List.not_mem_nil

/-- The rule nodes, with the literals left out. -/
def rulesAmong (nodes : List Node) : List Node :=
  nodes.filter (·.kind.isRule)

/-- The node is what the call `(index, pos)` leaves behind: it has the name of the rule at `index` and starts at
    `pos`. -/
def LeftBy (table : Table) (node : Node) (call : Nat × Nat) : Prop :=
  ∃ rule, table.ruleAt? call.1 = some rule ∧ node.kind = .rule rule.name ∧ node.span.start = call.2

/-- **The path is a trace of calls.** Its rules, from the root down, are `LeftBy` the calls of `trace`, which on top
    of `active`, the last one first, are a list of active calls that `Fits`. If there are any, some event of `es`
    `needs` at least `active.length + trace.length` levels. -/
def Traced (table : Table) (input : Input) (active : List (Nat × Nat)) (es : List Event) (path : List Node) : Prop :=
  ∃ trace : List (Node × (Nat × Nat)), trace.map Prod.fst = rulesAmong path ∧
    (∀ step ∈ trace, LeftBy table step.1 step.2) ∧
    Fits table input ((trace.map Prod.snd).reverse ++ active) ∧
    (trace ≠ [] → ∃ e ∈ es, active.length + trace.length ≤ e.needs)

variable {active : List (Nat × Nat)} {es fs : List Event} {path : List Node}

theorem Traced.mono (h : Traced table input active es path) (hsub : es ⊆ fs) :
    Traced table input active fs path := by
  obtain ⟨trace, hpath, hleft, hfits, hlevel⟩ := h
  refine ⟨trace, hpath, hleft, hfits, fun hne => ?_⟩
  obtain ⟨e, he, hneeds⟩ := hlevel hne
  exact ⟨e, hsub he, hneeds⟩

theorem traced_literal (hfits : Fits table input active) (es : List Event) (value : String) (span : Text.Span) :
    Traced table input active es [⟨.literal value, span⟩] :=
  ⟨[], rfl, fun _ h => absurd h List.not_mem_nil, hfits, fun h => absurd rfl h⟩

theorem traced_rule {index pos : Nat} {rule : Rule} {span : Text.Span} (hrule : table.ruleAt? index = some rule)
    (hfits : Fits table input ((index, pos) :: active)) (hspan : span.start = pos) (es : List Event) :
    Traced table input active (.called index pos active.length :: es) [⟨.rule rule.name, span⟩] := by
  refine ⟨[(⟨.rule rule.name, span⟩, (index, pos))], rfl, ?_, hfits, fun _ => ?_⟩
  · intro step hstep
    rw [List.mem_singleton.mp hstep]
    exact ⟨rule, hrule, rfl, hspan⟩
  · exact ⟨_, List.mem_cons_self, Nat.le_refl _⟩

/-- A rule on top of a path whose trace has `(index, pos)` active. -/
theorem Traced.rule {index pos : Nat} {rule : Rule} {span : Text.Span} (hrule : table.ruleAt? index = some rule)
    (hspan : span.start = pos) (h : Traced table input ((index, pos) :: active) es path) :
    Traced table input active (.called index pos active.length :: es) (⟨.rule rule.name, span⟩ :: path) := by
  obtain ⟨trace, hpath, hleft, hfits, hlevel⟩ := h
  refine ⟨(⟨.rule rule.name, span⟩, (index, pos)) :: trace, ?_, ?_, ?_, fun _ => ?_⟩
  · rw [List.map_cons, hpath]
    rfl
  · intro step hstep
    rcases List.mem_cons.mp hstep with rfl | hstep
    · exact ⟨rule, hrule, rfl, hspan⟩
    · exact hleft step hstep
  · rw [List.map_cons, List.reverse_cons, List.append_assoc]
    exact hfits
  · cases trace with
    | nil => exact ⟨_, List.mem_cons_self, Nat.le_refl _⟩
    | cons step trace =>
        obtain ⟨e, he, hneeds⟩ := hlevel (by simp)
        refine ⟨e, List.mem_cons_of_mem _ he, ?_⟩
        simp only [List.length_cons] at hneeds ⊢
        omega

/-! ## Runs -/

/-- **Every path of a tree that a run has built is `Traced`.** -/
theorem Runs.traced {goal : Goal} {pos : Nat} {verdict : Verdict}
    (h : Runs table input active goal pos verdict es) (hpos : pos ≤ input.size)
    (hfits : Fits table input active) :
    ∀ t ∈ verdict.nodes, ∀ path, Rose.Path t path → Traced table input active es path := by
  induction h with
  | literal _ =>
      intro t ht path hpath
      rw [List.mem_singleton.mp ht] at hpath
      cases hpath with
      | here => exact traced_literal hfits _ _ _
      | step hmem _ => exact absurd hmem List.not_mem_nil
  | ref _ _ ih => exact ih hpos hfits
  | seqNil =>
      intro t ht
      exact absurd ht List.not_mem_nil
  | seqCons hhead _ ih₁ ih₂ =>
      intro t ht path hpath
      rcases Verdict.mem_nodes_prepend ht with ht | ht
      · exact (ih₁ hpos hfits t ht path hpath).mono (List.subset_append_left _ _)
      · exact (ih₂ (hhead.stops hpos).2 hfits t ht path hpath).mono (List.subset_append_right _ _)
  | choiceHead _ ih => exact ih hpos hfits
  | choiceTail _ _ _ ih₂ =>
      intro t ht path hpath
      exact (ih₂ hpos hfits t ht path hpath).mono (List.subset_append_right _ _)
  | optSome _ ih => exact ih hpos hfits
  | optNone | repFailed | repIdle =>
      intro t ht
      exact absurd ht List.not_mem_nil
  | repMore hhead _ _ ih₁ ih₂ =>
      intro t ht path hpath
      rcases Verdict.mem_nodes_prepend ht with ht | ht
      · exact (ih₁ hpos hfits t ht path hpath).mono (List.subset_append_left _ _)
      · exact (ih₂ (hhead.stops hpos).2 hfits t ht path hpath).mono (List.subset_append_right _ _)
  | @rule active index rule pos verdict es hrule hnew _ ih =>
      intro t ht path hpath
      have hcalled := hfits.cons hrule hpos hnew
      cases verdict with
      | failed => exact absurd ht List.not_mem_nil
      | matched stop nodes =>
          rw [List.mem_singleton.mp ht] at hpath
          cases hpath with
          | here => exact traced_rule hrule hcalled rfl es
          | step hmem hbelow => exact (ih hpos hcalled _ hmem _ hbelow).rule hrule rfl
  | literalMissed | refDangling | seqFailed | choiceNil | ruleActive | ruleMissing =>
      intro t ht
      exact absurd ht List.not_mem_nil

/-! ## Whole inputs -/

/-- **The rules on a path of an accepted tree are `LeftBy` calls** that were active together, at most `maxDepth` of
    them. -/
theorem matchInput_traced {index : Nat} {settings : Settings} {found : MatchTree}
    (h : matchInput table index input settings = .ok found) (hpath : Rose.Path found path) :
    ∃ trace : List (Node × (Nat × Nat)), trace.map Prod.fst = rulesAmong path ∧
      (∀ step ∈ trace, LeftBy table step.1 step.2) ∧ Fits table input (trace.map Prod.snd).reverse ∧
      trace.length ≤ settings.maxDepth := by
  obtain ⟨verdict, es, hrun⟩ := exists_runs table input index
  have hdepth : needed es ≤ settings.maxDepth := by
    by_contra hlt
    obtain ⟨pos, -, herror⟩ := hrun.matchInput_of_lt (Nat.not_le.mp hlt)
    cases herror.symm.trans h
  have hverdict : verdict.nodes = [found] := by
    have hattempt := congrArg Prod.fst (hrun.attempt_eq (reportingEngine table input settings) hdepth {})
    rw [matchInput_eq] at h
    rw [Engine.attempt, single_fst, conclude_eq_ok h] at hattempt
    cases verdict with
    | failed => cases hattempt
    | matched stop nodes =>
        cases hattempt
        rfl
  obtain ⟨trace, htrace, hleft, hfits, hlevel⟩ :=
    hrun.traced (Nat.zero_le _) Fits.nil found (by rw [hverdict]; exact List.mem_cons_self) path hpath
  rw [List.append_nil] at hfits
  refine ⟨trace, htrace, hleft, hfits, ?_⟩
  cases trace with
  | nil => exact Nat.zero_le _
  | cons step trace =>
      obtain ⟨e, he, hneeds⟩ := hlevel (by simp)
      rw [List.length_nil, Nat.zero_add] at hneeds
      exact Nat.le_trans hneeds (Nat.le_trans (needs_le_needed he) hdepth)

/-- With `.namesDistinct`, two nodes with one kind and one start are left by one call. -/
theorem LeftBy.unique (hdistinct : table.Meets .namesDistinct) {node node' : Node} {call call' : Nat × Nat}
    (h : LeftBy table node call) (h' : LeftBy table node' call') (hkind : node.kind = node'.kind)
    (hstart : node.span.start = node'.span.start) : call = call' := by
  obtain ⟨rule, hrule, hname, hpos⟩ := h
  obtain ⟨rule', hrule', hname', hpos'⟩ := h'
  have hnames : rule.name = rule'.name := by
    rw [hname, hname'] at hkind
    exact NodeKind.rule.inj hkind
  have hindex := Table.ruleAt?_unique hdistinct hrule hrule' hnames
  exact Prod.ext hindex (hpos.symm.trans (hstart.trans hpos'))

/-- **No two rules on a path have one kind and one start**, as active calls are pairwise different. -/
theorem pairwise_rulesAmong {index : Nat} {settings : Settings} {found : MatchTree}
    (hdistinct : table.Meets .namesDistinct) (h : matchInput table index input settings = .ok found)
    (hpath : Rose.Path found path) :
    (rulesAmong path).Pairwise fun node node' => node.kind = node'.kind → node'.span.start ≠ node.span.start := by
  obtain ⟨trace, htrace, hleft, hfits, -⟩ := matchInput_traced h hpath
  have hcalls : trace.Pairwise fun step step' => step.2 ≠ step'.2 :=
    List.pairwise_map.mp (List.nodup_reverse.mp hfits.nodup)
  rw [← htrace, List.pairwise_map]
  refine hcalls.imp_of_mem fun {step step'} hstep hstep' hne hkind hstart => ?_
  exact hne ((hleft step hstep).unique hdistinct (hleft step' hstep') hkind hstart.symm)

end Match

/-! ## The store -/

namespace Tree

variable {tree : Tree}

/-- The numbers of rule nodes. -/
def rulesOn (tree : Tree) (path : List Nat) : List Nat :=
  path.filter fun id => (tree.kind? id).any NodeKind.isRule

/-- **Going down a view and going up the store is the same way**: the ids of a path of the view, turned around,
    followed by what lies above the root of the view, are a `Climb`. -/
theorem Faithful.climb_path (hlinked : tree.Linked) {view : Rose Visit} (h : tree.Faithful view)
    {visits : List Visit} (hpath : Rose.Path view visits) {above : List Nat}
    (habove : Climb tree.parent? view.value.id (view.value.id :: above)) {last : Visit}
    (hlast : visits.getLast? = some last) :
    Climb tree.parent? last.id ((visits.map (·.id)).reverse ++ above) := by
  induction hpath generalizing above with
  | here =>
      cases hlast
      exact habove
  | @step v ts t visits hmem hbelow ih =>
      have hparent : tree.parent? t.value.id = some v.id := h.parent?_child hlinked hmem
      have hne : visits ≠ [] := by
        rintro rfl
        cases hbelow
      rw [List.getLast?_cons_of_ne_nil hne] at hlast
      have hclimb := ih (h.sub (.child hmem .refl)) (.step hparent habove) hlast
      rw [List.map_cons, List.reverse_cons, List.append_assoc]
      exact hclimb

theorem Faithful.length_rulesOn {view : Rose Visit} (h : tree.Faithful view) {visits : List Visit}
    (hpath : Rose.Path view visits) :
    (tree.rulesOn (visits.map (·.id)).reverse).length
      = (Match.rulesAmong (visits.map (·.entry.toNode))).length := by
  unfold rulesOn Match.rulesAmong
  rw [List.filter_reverse, List.length_reverse, List.filter_map, List.filter_map, List.length_map, List.length_map]
  refine congrArg List.length (List.filter_congr fun visit hvisit => ?_)
  have hkind := kind?_of_get? (h.get? (hpath.mem_preorder hvisit))
  rw [Function.comp_apply, Function.comp_apply, hkind]
  rfl

end Tree

namespace MatchTree

/-- **The way to a node of the store of a match**: a path of the view that ends at `id`, whose ids, turned around,
    are the `Climb` from `id`. -/
theorem exists_path_to {t : MatchTree} (hlinked : (Tree.ofMatch t).Linked) {id : Nat} (hid : id < t.size) :
    ∃ before last, last.id = id ∧ Rose.Path (visits none 0 t) (before ++ [last]) ∧
      Climb (Tree.ofMatch t).parent? id ((before ++ [last]).map (·.id)).reverse := by
  have hplaced := placed_ofMatch t
  have hfaithful := hplaced.faithful
  have hroot : (visits none 0 t).value.id = 0 := by
    obtain ⟨v, ts⟩ := t
    rfl
  have hshown : id ∈ (visits none 0 t).ids := by
    rw [hfaithful.mem_ids_iff hlinked, hroot]
    exact under_root t hid
  obtain ⟨last, hlast, rfl⟩ := List.mem_map.mp hshown
  obtain ⟨before, hpath⟩ := Rose.exists_path _ hlast
  have htop : Climb (Tree.ofMatch t).parent? (visits none 0 t).value.id [(visits none 0 t).value.id] := by
    rw [hroot]
    exact .top hplaced.parent?_eq
  have hclimb := hfaithful.climb_path hlinked hpath htop (List.getLast?_concat ..)
  rw [List.append_nil] at hclimb
  exact ⟨before, last, rfl, hpath, hclimb⟩

end MatchTree

namespace Match

open MatchTree

variable {table : Table} {input : Input} {index : Nat} {settings : Settings} {found : MatchTree}

theorem path_of_visits {visited : List Visit} (h : Rose.Path (visits none 0 found) visited) :
    Rose.Path found (visited.map (·.entry.toNode)) := by
  have hpath := h.map (·.entry.toNode)
  rwa [map_visits] at hpath

/-- On a path of the view, a rule before the last node and the last node itself, if they have one name, have two
    starts. -/
theorem start_ne_of_path (hdistinct : table.Meets .namesDistinct)
    (h : matchInput table index input settings = .ok found) {before : List Visit} {first last : Visit}
    (hpath : Rose.Path (visits none 0 found) (before ++ [last])) (hfirst : first ∈ before) {name : String}
    (hname : first.entry.kind = .rule name) (hname' : last.entry.kind = .rule name) :
    last.entry.span.start ≠ first.entry.span.start := by
  have hsublist : [first, last].Sublist (before ++ [last]) :=
    (List.singleton_sublist.mpr hfirst).append_right [last]
  have hrules := (hsublist.map (·.entry.toNode)).filter (·.kind.isRule)
  have hkept : ([first, last].map (·.entry.toNode)).filter (·.kind.isRule)
      = [first.entry.toNode, last.entry.toNode] := by
    simp [hname, hname', NodeKind.isRule, NodeKind.rule?]
  rw [hkept] at hrules
  have hpairwise := pairwise_rulesAmong hdistinct h (path_of_visits hpath)
  exact List.pairwise_iff_forall_sublist.mp hpairwise hrules (hname.trans hname'.symm)

/-- **How many rules there are on a way up**: at most `table.size * (input.size + 1)` by the guard and at most
    `maxDepth` by the limit. -/
theorem length_rulesOn_le (h : matchInput table index input settings = .ok found) {id : Nat} {path : List Nat}
    (hclimb : Climb (Tree.ofMatch found).parent? id path) :
    ((Tree.ofMatch found).rulesOn path).length ≤ table.size * (input.size + 1) ∧
      ((Tree.ofMatch found).rulesOn path).length ≤ settings.maxDepth := by
  by_cases hid : id < found.size
  · obtain ⟨before, last, -, hpath, hclimb'⟩ := exists_path_to (matchInput_exact h).2.linked hid
    rw [hclimb.unique hclimb', (placed_ofMatch found).faithful.length_rulesOn hpath]
    obtain ⟨trace, htrace, -, hfits, hdepth⟩ := matchInput_traced h (path_of_visits hpath)
    have hcount := hfits.length_le
    rw [List.length_reverse, List.length_map] at hcount
    rw [← htrace, List.length_map]
    exact ⟨hcount, hdepth⟩
  · -- a number outside the store is nobody's way up
    rw [← size_ofMatch, Nat.not_lt] at hid
    have hnone := Tree.get?_eq_none_iff.mpr hid
    have htop : Climb (Tree.ofMatch found).parent? id [id] := .top (by rw [Tree.parent?, hnone]; rfl)
    have hempty : (Tree.ofMatch found).rulesOn [id] = [] := by simp [Tree.rulesOn, Tree.kind?, hnone]
    rw [hclimb.unique htop, hempty]
    exact ⟨Nat.zero_le _, Nat.zero_le _⟩

/-- **The guard against left recursion shows in the tree.** With `defect? = none`, two rules of one name, `below`
    strictly `Under` `above`, have two starts. So every `Climb` meets at most `table.size * (input.size + 1)` rules,
    and at most `maxDepth`. -/
theorem matchInput_guarded (hchecked : table.defect? = none)
    (h : matchInput table index input settings = .ok found) :
    (∀ above below name entry entry', (Tree.ofMatch found).get? above = some entry →
      (Tree.ofMatch found).get? below = some entry' → entry.kind = .rule name → entry'.kind = .rule name →
      (Tree.ofMatch found).Under below above → below ≠ above → entry'.span.start ≠ entry.span.start) ∧
    ∀ id path, Climb (Tree.ofMatch found).parent? id path →
      ((Tree.ofMatch found).rulesOn path).length ≤ table.size * (input.size + 1) ∧
      ((Tree.ofMatch found).rulesOn path).length ≤ settings.maxDepth := by
  have hdistinct : table.Meets .namesDistinct := Table.defect?_eq_none_iff_meets.mp hchecked _
  have hfaithful := (placed_ofMatch found).faithful
  refine ⟨?_, fun id path hclimb => length_rulesOn_le h hclimb⟩
  intro above below name entry entry' hentry hentry' hname hname' hunder hne
  have hlt : below < found.size := by
    rw [← size_ofMatch]
    exact Tree.get?_lt_size hentry'
  obtain ⟨before, last, rfl, hpath, hclimb⟩ := exists_path_to (matchInput_exact h).2.linked hlt
  -- the rule above stands on the path before its end
  have hmem : above ∈ before.map (·.id) := by
    have hmem := (Tree.mem_climb_iff hclimb).mpr hunder
    rw [List.mem_reverse, List.map_append, List.mem_append] at hmem
    rcases hmem with hmem | hmem
    · exact hmem
    · exact absurd (List.mem_singleton.mp hmem).symm hne
  obtain ⟨first, hfirst, rfl⟩ := List.mem_map.mp hmem
  have hget : (Tree.ofMatch found).get? first.id = some first.entry :=
    hfaithful.get? (hpath.mem_preorder (List.mem_append_left _ hfirst))
  have hget' : (Tree.ofMatch found).get? last.id = some last.entry :=
    hfaithful.get? (hpath.mem_preorder (List.mem_append_right _ List.mem_cons_self))
  cases hget.symm.trans hentry
  cases hget'.symm.trans hentry'
  exact start_ne_of_path hdistinct h hpath hfirst hname hname'

/-- `root := sum` and `sum := sum "+" | "1" sum?`: a sum is called at its own place again and again, and is cut
    there, but a sum in a sum, one place further on, is not. -/
def sumTable : Table :=
  ⟨[⟨"root", .ref "sum"⟩,
    ⟨"sum", .choice [.seq [.ref "sum", .literal "+"], .seq [.literal "1", .opt (.ref "sum")]]⟩]⟩

theorem matchInput_guarded_sumTable :
    ∃ found, sumTable.defect? = none ∧
      matchInput sumTable 0 (.ofString "11") { maxDepth := 5 } = .ok found ∧
      (∃ entry entry', (Tree.ofMatch found).get? 1 = some entry ∧ (Tree.ofMatch found).get? 3 = some entry' ∧
        entry.kind = .rule "sum" ∧ entry'.kind = .rule "sum" ∧ (Tree.ofMatch found).Under 3 1 ∧
        entry'.span.start ≠ entry.span.start) ∧
      Climb (Tree.ofMatch found).parent? 4 [4, 3, 1, 0] ∧
      ((Tree.ofMatch found).rulesOn [4, 3, 1, 0]).length = 3 ∧
      ((Tree.ofMatch found).rulesOn [4, 3, 1, 0]).length ≤ 5 := by
  have hchecked : sumTable.defect? = none := by decide
  have hok : ∃ found, matchInput sumTable 0 (.ofString "11") { maxDepth := 5 } = .ok found ∧
      (∃ entry entry', (Tree.ofMatch found).get? 1 = some entry ∧ (Tree.ofMatch found).get? 3 = some entry' ∧
        entry.kind = .rule "sum" ∧ entry'.kind = .rule "sum") ∧
      (Tree.ofMatch found).parent? 4 = some 3 ∧ (Tree.ofMatch found).parent? 3 = some 1 ∧
      (Tree.ofMatch found).parent? 1 = some 0 ∧ (Tree.ofMatch found).parent? 0 = none ∧
      ((Tree.ofMatch found).rulesOn [4, 3, 1, 0]).length = 3 :=
    ⟨_, rfl, ⟨_, _, rfl, rfl, by decide, by decide⟩, by decide, by decide, by decide, by decide, by decide⟩
  obtain ⟨found, hfound, ⟨entry, entry', hentry, hentry', hname, hname'⟩, h4, h3, h1, h0, hcount⟩ := hok
  obtain ⟨hstarts, hpaths⟩ := matchInput_guarded hchecked hfound
  have hclimb : Climb (Tree.ofMatch found).parent? 4 [4, 3, 1, 0] := .step h4 (.step h3 (.step h1 (.top h0)))
  have hunder : (Tree.ofMatch found).Under 3 1 := Tree.under_of_parent? h3
  have hstart := hstarts 1 3 "sum" entry entry' hentry hentry' hname hname' hunder (by decide)
  exact ⟨found, hchecked, hfound, ⟨entry, entry', hentry, hentry', hname, hname', hunder, hstart⟩, hclimb, hcount,
    (hpaths 4 _ hclimb).2⟩

end Match

end PegTree
