import Mathlib.Data.List.Forall2
import PegTree.Proofs.DepthLimit
import PegTree.Proofs.RoseTrees
import PegTree.Proofs.RuleGraph

/-!
# `Proofs.Correspondence` — two matches that take the same way

A match does not care what rules are called or at which index they stand, and it sees the input only through
the literals that stand in it. A `Mirror` is all that is needed for two matches to run side by side: a
translation of names, a relation between indexes that pairs rules off one to one, patterns of the same shape
whose literals and references mean the same, and inputs with the same units.

* `Runs.mirrored` — a run is mirrored step by step. The guard looks at pairs of an index and a place, so the
  active rules of the two runs are related pairwise, and being active means the same on both sides.
* `matchInput_mirrored` — hence whole results correspond: the tree with its names translated, or the same
  error, located by the other input. The limit is felt at the same call.
-/

namespace PegTree

/-! ## Other names -/

namespace Pattern

mutual
/-- The pattern with `ρ` applied to the name of every reference. -/
def rename (ρ : String → String) : Pattern → Pattern
  | .literal value => .literal value
  | .ref name => .ref (ρ name)
  | .seq ps => .seq (renameList ρ ps)
  | .choice ps => .choice (renameList ρ ps)
  | .opt p => .opt (rename ρ p)
  | .rep p => .rep (rename ρ p)
def renameList (ρ : String → String) : List Pattern → List Pattern
  | [] => []
  | p :: ps => rename ρ p :: renameList ρ ps
end

theorem renameList_eq_map (ρ : String → String) (ps : List Pattern) :
    renameList ρ ps = ps.map (rename ρ) := by
  induction ps with
  | nil => rfl
  | cons p ps ih => rw [renameList, ih, List.map_cons]

theorem rename_id (p : Pattern) : p.rename id = p := by
  induction p using Pattern.inductionOn with
  | literal value => rfl
  | ref name => rfl
  | seq ps ih => rw [rename, renameList_eq_map, List.map_congr_left ih, List.map_id']
  | choice ps ih => rw [rename, renameList_eq_map, List.map_congr_left ih, List.map_id']
  | opt p ih => rw [rename, ih]
  | rep p ih => rw [rename, ih]

/-- **Patterns of one shape**, with the same literals, each of which satisfies `L`, and references related by
    `N`. -/
inductive Alike (L : String → Prop) (N : String → String → Prop) : Pattern → Pattern → Prop where
  | literal {value} : L value → Alike L N (.literal value) (.literal value)
  | ref {name name'} : N name name' → Alike L N (.ref name) (.ref name')
  | seqNil : Alike L N (.seq []) (.seq [])
  | seqCons {p q ps qs} : Alike L N p q → Alike L N (.seq ps) (.seq qs) →
      Alike L N (.seq (p :: ps)) (.seq (q :: qs))
  | choiceNil : Alike L N (.choice []) (.choice [])
  | choiceCons {p q ps qs} : Alike L N p q → Alike L N (.choice ps) (.choice qs) →
      Alike L N (.choice (p :: ps)) (.choice (q :: qs))
  | opt {p q} : Alike L N p q → Alike L N (.opt p) (.opt q)
  | rep {p q} : Alike L N p q → Alike L N (.rep p) (.rep q)

section Alike

variable {L : String → Prop} {N : String → String → Prop} {f : Pattern → Pattern} {ps : List Pattern}

theorem alike_seq (h : ∀ p ∈ ps, Alike L N p (f p)) : Alike L N (.seq ps) (.seq (ps.map f)) := by
  induction ps with
  | nil => exact .seqNil
  | cons p ps ih =>
      exact .seqCons (h p List.mem_cons_self) (ih fun q hq => h q (List.mem_cons_of_mem _ hq))

theorem alike_choice (h : ∀ p ∈ ps, Alike L N p (f p)) : Alike L N (.choice ps) (.choice (ps.map f)) := by
  induction ps with
  | nil => exact .choiceNil
  | cons p ps ih =>
      exact .choiceCons (h p List.mem_cons_self) (ih fun q hq => h q (List.mem_cons_of_mem _ hq))

/-- **`p` and `p.rename ρ` are alike** if every literal in `p` satisfies `L` and every name in it
    `N name (ρ name)`. -/
theorem alike_rename {ρ : String → String} (p : Pattern)
    (hL : ∀ value, (Pattern.literal value).Within p → L value)
    (hN : ∀ name, (Pattern.ref name).Within p → N name (ρ name)) : Alike L N p (p.rename ρ) := by
  induction p using Pattern.inductionOn with
  | literal value => exact .literal (hL value .here)
  | ref name => exact .ref (hN name .here)
  | seq ps ih =>
      rw [rename, renameList_eq_map]
      exact alike_seq fun p hp =>
        ih p hp (fun value h => hL value (.seq hp h)) fun name h => hN name (.seq hp h)
  | choice ps ih =>
      rw [rename, renameList_eq_map]
      exact alike_choice fun p hp =>
        ih p hp (fun value h => hL value (.choice hp h)) fun name h => hN name (.choice hp h)
  | opt p ih => exact .opt (ih (fun value h => hL value (.opt h)) fun name h => hN name (.opt h))
  | rep p ih => exact .rep (ih (fun value h => hL value (.rep h)) fun name h => hN name (.rep h))

end Alike

end Pattern

def NodeKind.rename (ρ : String → String) : NodeKind → NodeKind
  | .rule name => .rule (ρ name)
  | .literal value => .literal value

def Node.rename (ρ : String → String) (node : Node) : Node :=
  { node with kind := node.kind.rename ρ }

/-- The tree with `ρ` applied to the name of every rule node; literals and spans stay. -/
def MatchTree.rename (ρ : String → String) (tree : MatchTree) : MatchTree :=
  Rose.map (Node.rename ρ) tree

theorem MatchTree.rename_node (ρ : String → String) (value : Node) (ts : List MatchTree) :
    MatchTree.rename ρ (.node value ts) = .node (value.rename ρ) (ts.map (MatchTree.rename ρ)) := by
  unfold MatchTree.rename
  rw [Rose.map_node]

theorem NodeKind.rename_id (kind : NodeKind) : kind.rename id = kind := by
  cases kind <;> rfl

mutual
theorem MatchTree.rename_id : ∀ t : MatchTree, MatchTree.rename id t = t
  | .node value ts => by
      rw [rename_node, renameList_id ts, Node.rename, NodeKind.rename_id]
theorem MatchTree.renameList_id : ∀ ts : List MatchTree, ts.map (MatchTree.rename id) = ts
  | [] => rfl
  | t :: ts => by rw [List.map_cons, rename_id t, renameList_id ts]
end

namespace Match

def Verdict.rename (ρ : String → String) : Verdict → Verdict
  | .matched stop nodes => .matched stop (nodes.map (MatchTree.rename ρ))
  | .failed => .failed

theorem Verdict.rename_prepend (ρ : String → String) (nodes : List MatchTree) (verdict : Verdict) :
    (verdict.prepend nodes).rename ρ = (verdict.rename ρ).prepend (nodes.map (MatchTree.rename ρ)) := by
  cases verdict with
  | matched stop more => simp only [prepend, rename, List.map_append]
  | failed => rfl

theorem Verdict.rename_wrap (ρ : String → String) (name : String) (pos : Nat) (verdict : Verdict) :
    (verdict.wrap name pos).rename ρ = (verdict.rename ρ).wrap (ρ name) pos := by
  cases verdict with
  | matched stop nodes =>
      simp only [wrap, rename, List.map_cons, List.map_nil, MatchTree.rename_node]
      rfl
  | failed => rfl

/-! ## Mirrors -/

/-- `matchLiteral? pos value` is the same on both inputs, at every `pos`. -/
def SameLiteral (input input' : Input) (value : String) : Prop :=
  ∀ pos, input'.matchLiteral? pos value = input.matchLiteral? pos value

/-- `indexOf?` of both names is `none`, or is `some` at indexes related by `R`. -/
def SameName (table table' : Table) (R : Nat → Nat → Prop) (name name' : String) : Prop :=
  Option.Rel R (table.indexOf? name) (table'.indexOf? name')

/-- **What lets two matches run side by side.** `rename` translates names, `counterpart` relates indexes one to one,
    and related rules have patterns that are `Alike` for `SameLiteral` and `SameName`. -/
structure Mirror (table table' : Table) (input input' : Input) where
  /-- What the name of a rule becomes. -/
  rename : String → String
  /-- Which indexes stand for each other. -/
  counterpart : Nat → Nat → Prop
  biUnique : Relator.BiUnique counterpart
  rules : ∀ {i j}, counterpart i j →
    Option.Rel (fun rule rule' => rule'.name = rename rule.name ∧
        rule.pattern.Alike (SameLiteral input input') (SameName table table' counterpart) rule'.pattern)
      (table.ruleAt? i) (table'.ruleAt? j)
  size_eq : input'.size = input.size
  unit?_eq : ∀ pos, input'.unit? pos = input.unit? pos

/-- Events at one place, with indexes related by `R`; the names of dangling references are not compared. -/
inductive Event.Alike (R : Nat → Nat → Prop) : Event → Event → Prop where
  | missed {literal pos} : Alike R (.missed literal pos) (.missed literal pos)
  | took {literal pos stop} : Alike R (.took literal pos stop) (.took literal pos stop)
  | called {i j pos depth} : R i j → Alike R (.called i pos depth) (.called j pos depth)
  | dangling {name name' pos} : Alike R (.dangling name pos) (.dangling name' pos)

namespace Mirror

variable {table table' : Table} {input input' : Input}

def Calls (m : Mirror table table' input input') (call call' : Nat × Nat) : Prop :=
  m.counterpart call.1 call'.1 ∧ call.2 = call'.2

/-- Goals that stand for each other: patterns that are `Alike`, rules at related indexes. -/
inductive Goals (m : Mirror table table' input input') : Goal → Goal → Prop where
  | pattern {p q} : p.Alike (SameLiteral input input') (SameName table table' m.counterpart) q →
      Goals m (.pattern p) (.pattern q)
  | rule {i j} : m.counterpart i j → Goals m (.rule i) (.rule j)

theorem calls_at (m : Mirror table table' input input') {i j : Nat} (h : m.counterpart i j) (pos : Nat) :
    m.Calls (i, pos) (j, pos) :=
  ⟨h, rfl⟩

theorem calls_biUnique (m : Mirror table table' input input') : Relator.BiUnique m.Calls := by
  constructor
  · rintro ⟨i, pos⟩ ⟨k, pos'⟩ ⟨j, place⟩ ⟨hi, rfl⟩ ⟨hk, rfl⟩
    exact Prod.ext (m.biUnique.1 hi hk) rfl
  · rintro ⟨i, pos⟩ ⟨j, place⟩ ⟨k, place'⟩ ⟨hj, rfl⟩ ⟨hk, rfl⟩
    exact Prod.ext (m.biUnique.2 hj hk) rfl

/-- `(i, pos) ∈ active ↔ (j, pos) ∈ active'`, so the guard cuts both runs at the same calls. -/
theorem mem_active_iff (m : Mirror table table' input input') {active active' : List (Nat × Nat)} {i j : Nat}
    (hactive : List.Forall₂ m.Calls active active') (h : m.counterpart i j) (pos : Nat) :
    (i, pos) ∈ active ↔ (j, pos) ∈ active' :=
  List.rel_mem m.calls_biUnique (m.calls_at h pos) hactive

theorem exists_of_rel_some {α β : Type} {R : α → β → Prop} {a : α} {found : Option β}
    (h : Option.Rel R (some a) found) : ∃ b, found = some b ∧ R a b := by
  cases h with
  | some h => exact ⟨_, rfl, h⟩

theorem eq_none_of_rel {α β : Type} {R : α → β → Prop} {found : Option β}
    (h : Option.Rel R none found) : found = none := by
  cases h
  rfl

/-- A counterpart of a declared index is declared, has the translated name, and its pattern is a mirrored goal. -/
theorem exists_rule (m : Mirror table table' input input') {i j : Nat} {rule : Rule}
    (h : m.counterpart i j) (hrule : table.ruleAt? i = some rule) :
    ∃ rule', table'.ruleAt? j = some rule' ∧ rule'.name = m.rename rule.name ∧
      m.Goals (.pattern rule.pattern) (.pattern rule'.pattern) := by
  obtain ⟨rule', hrule', hname, halike⟩ := exists_of_rel_some (hrule ▸ m.rules h)
  exact ⟨rule', hrule', hname, .pattern halike⟩

theorem ruleAt?_eq_none (m : Mirror table table' input input') {i j : Nat} (h : m.counterpart i j)
    (hrule : table.ruleAt? i = none) : table'.ruleAt? j = none :=
  eq_none_of_rel (hrule ▸ m.rules h)

end Mirror

variable {table table' : Table} {input input' : Input}

/-- **A run is mirrored**: `Runs` on the left with events `es` gives `Runs` on the right with the translated verdict
    and events that are `Alike`, one by one. -/
theorem Runs.mirrored (m : Mirror table table' input input') {active : List (Nat × Nat)} {goal : Goal}
    {pos : Nat} {verdict : Verdict} {es : List Event} (h : Runs table input active goal pos verdict es) :
    ∀ {active' goal'}, List.Forall₂ m.Calls active active' → m.Goals goal goal' →
      ∃ es', List.Forall₂ (Event.Alike m.counterpart) es es' ∧
        Runs table' input' active' goal' pos (verdict.rename m.rename) es' := by
  induction h with
  | literal h =>
      rintro active' _ _ ⟨halike⟩
      cases halike with
      | literal hsame => exact ⟨_, .cons .took .nil, .literal ((hsame _).trans h)⟩
  | literalMissed h =>
      rintro active' _ _ ⟨halike⟩
      cases halike with
      | literal hsame => exact ⟨_, .cons .missed .nil, .literalMissed ((hsame _).trans h)⟩
  | ref hindex _ ih =>
      rintro active' _ hactive ⟨halike⟩
      cases halike with
      | ref hname =>
          rw [SameName, hindex] at hname
          obtain ⟨index', hindex', hcounterpart⟩ := Mirror.exists_of_rel_some hname
          obtain ⟨es', hes, hrun⟩ := ih hactive (.rule hcounterpart)
          exact ⟨es', hes, .ref hindex' hrun⟩
  | refDangling hindex =>
      rintro active' _ _ ⟨halike⟩
      cases halike with
      | ref hname =>
          rw [SameName, hindex] at hname
          exact ⟨_, .cons .dangling .nil, .refDangling (Mirror.eq_none_of_rel hname)⟩
  | seqNil =>
      rintro active' _ _ ⟨⟨⟩⟩
      exact ⟨_, .nil, .seqNil⟩
  | seqCons _ _ ih₁ ih₂ =>
      rintro active' _ hactive ⟨halike⟩
      cases halike with
      | seqCons hhead htail =>
          obtain ⟨es', hes, hrun⟩ := ih₁ hactive (.pattern hhead)
          obtain ⟨fs', hfs, hrest⟩ := ih₂ hactive (.pattern htail)
          rw [Verdict.rename_prepend]
          exact ⟨_, List.rel_append hes hfs, .seqCons hrun hrest⟩
  | seqFailed _ ih =>
      rintro active' _ hactive ⟨halike⟩
      cases halike with
      | seqCons hhead _ =>
          obtain ⟨es', hes, hrun⟩ := ih hactive (.pattern hhead)
          exact ⟨es', hes, .seqFailed hrun⟩
  | choiceNil =>
      rintro active' _ _ ⟨⟨⟩⟩
      exact ⟨_, .nil, .choiceNil⟩
  | choiceHead _ ih =>
      rintro active' _ hactive ⟨halike⟩
      cases halike with
      | choiceCons hhead _ =>
          obtain ⟨es', hes, hrun⟩ := ih hactive (.pattern hhead)
          exact ⟨es', hes, .choiceHead hrun⟩
  | choiceTail _ _ ih₁ ih₂ =>
      rintro active' _ hactive ⟨halike⟩
      cases halike with
      | choiceCons hhead htail =>
          obtain ⟨es', hes, hrun⟩ := ih₁ hactive (.pattern hhead)
          obtain ⟨fs', hfs, hrest⟩ := ih₂ hactive (.pattern htail)
          exact ⟨_, List.rel_append hes hfs, .choiceTail hrun hrest⟩
  | optSome _ ih =>
      rintro active' _ hactive ⟨halike⟩
      cases halike with
      | opt hbody =>
          obtain ⟨es', hes, hrun⟩ := ih hactive (.pattern hbody)
          exact ⟨es', hes, .optSome hrun⟩
  | optNone _ ih =>
      rintro active' _ hactive ⟨halike⟩
      cases halike with
      | opt hbody =>
          obtain ⟨es', hes, hrun⟩ := ih hactive (.pattern hbody)
          exact ⟨es', hes, .optNone hrun⟩
  | repFailed _ ih =>
      rintro active' _ hactive ⟨halike⟩
      cases halike with
      | rep hbody =>
          obtain ⟨es', hes, hrun⟩ := ih hactive (.pattern hbody)
          exact ⟨es', hes, .repFailed hrun⟩
  | repIdle _ ih =>
      rintro active' _ hactive ⟨halike⟩
      cases halike with
      | rep hbody =>
          obtain ⟨es', hes, hrun⟩ := ih hactive (.pattern hbody)
          exact ⟨es', hes, .repIdle hrun⟩
  | repMore _ hmid _ ih₁ ih₂ =>
      rintro active' _ hactive ⟨halike⟩
      cases halike with
      | rep hbody =>
          obtain ⟨es', hes, hrun⟩ := ih₁ hactive (.pattern hbody)
          obtain ⟨fs', hfs, hrest⟩ := ih₂ hactive (.pattern (.rep hbody))
          rw [Verdict.rename_prepend]
          exact ⟨_, List.rel_append hes hfs, .repMore hrun hmid hrest⟩
  | rule hrule hnew _ ih =>
      rintro active' _ hactive (_ | hcounterpart)
      obtain ⟨rule', hrule', hname, hgoals⟩ := m.exists_rule hcounterpart hrule
      obtain ⟨es', hes, hrun⟩ := ih (.cons (m.calls_at hcounterpart _) hactive) hgoals
      have hnew' := mt (m.mem_active_iff hactive hcounterpart _).mpr hnew
      rw [Verdict.rename_wrap, ← hname, hactive.length_eq]
      exact ⟨_, .cons (.called hcounterpart) hes, .rule hrule' hnew' hrun⟩
  | ruleActive hrule hmem =>
      rintro active' _ hactive (_ | hcounterpart)
      obtain ⟨rule', hrule', _, _⟩ := m.exists_rule hcounterpart hrule
      have hmem' := (m.mem_active_iff hactive hcounterpart _).mp hmem
      rw [hactive.length_eq]
      exact ⟨_, .cons (.called hcounterpart) .nil, .ruleActive hrule' hmem'⟩
  | ruleMissing hrule =>
      rintro active' _ _ (_ | hcounterpart)
      exact ⟨_, .nil, .ruleMissing (m.ruleAt?_eq_none hcounterpart hrule)⟩

/-! ## What is observed of mirrored runs -/

section Events

variable {R : Nat → Nat → Prop} {es es' : List Event}

theorem Event.Alike.callAt?_eq {e e' : Event} (h : Event.Alike R e e') (level : Nat) :
    e'.callAt? level = e.callAt? level := by
  cases h <;> rfl

theorem Event.Alike.needs_eq {e e' : Event} (h : Event.Alike R e e') : e'.needs = e.needs := by
  cases h <;> rfl

/-- `Event.Alike` events have the same `Furthest.note`, which looks at missed literals only. -/
theorem Event.Alike.note_eq {e e' : Event} (h : Event.Alike R e e') (limit : Nat) (furthest : Furthest) :
    furthest.note limit e' = furthest.note limit e := by
  cases h <;> rfl

theorem firstCall?_of_alike (h : List.Forall₂ (Event.Alike R) es es') (level : Nat) :
    firstCall? level es' = firstCall? level es := by
  induction h with
  | nil => rfl
  | cons he _ ih =>
      unfold firstCall? at ih ⊢
      rw [List.findSome?_cons, List.findSome?_cons, he.callAt?_eq, ih]

theorem needed_of_alike (h : List.Forall₂ (Event.Alike R) es es') : needed es' = needed es := by
  induction h with
  | nil => rfl
  | cons he _ ih => rw [needed, needed, he.needs_eq, ih]

theorem foldl_note_of_alike (h : List.Forall₂ (Event.Alike R) es es') (limit : Nat) (furthest : Furthest) :
    es'.foldl (Furthest.note limit) furthest = es.foldl (Furthest.note limit) furthest := by
  induction h generalizing furthest with
  | nil => rfl
  | cons he _ ih => rw [List.foldl_cons, List.foldl_cons, he.note_eq, ih]

end Events

/-! ## Whole inputs -/

/-- The error with `location` taken from `input`. -/
def relocate (input : Input) (error : ParseError) : ParseError :=
  { error with location := input.location? error.position }

theorem errorAt_mirrored (m : Mirror table table' input input') (kind : ParseError.Kind) (pos : Nat)
    (expected : List String) :
    errorAt input' kind pos expected = relocate input' (errorAt input kind pos expected) := by
  unfold errorAt relocate
  rw [m.unit?_eq]

theorem conclude_eq_error {result : Outcome MatchTree × Furthest} {error : ParseError}
    (h : conclude input result = .error error) :
    ∃ kind pos expected, error = errorAt input kind pos expected := by
  obtain ⟨⟨stop, tree⟩ | _ | deep, furthest⟩ := result
  · simp only [conclude] at h
    split at h
    · cases h
    · split at h <;> cases h <;> exact ⟨_, _, _, rfl⟩
  · cases h
    exact ⟨_, _, _, rfl⟩
  · cases h
    exact ⟨_, _, _, rfl⟩

/-- `location` of an error is `location?` of its position in the same input. -/
theorem matchInput_location {index : Nat} {settings : Settings} {error : ParseError}
    (h : matchInput table index input settings = .error error) :
    error.location = input.location? error.position := by
  rw [matchInput_eq] at h
  obtain ⟨_, _, _, rfl⟩ := conclude_eq_error h
  rfl

/-- The result on the other side: the tree renamed by `ρ`, or the error relocated in `input'`. -/
def mirrorResult (ρ : String → String) (input' : Input) :
    Except ParseError MatchTree → Except ParseError MatchTree
  | .ok tree => .ok (tree.rename ρ)
  | .error error => .error (relocate input' error)

theorem conclude_mirrored (m : Mirror table table' input input') (outcome : Outcome MatchTree)
    (furthest : Furthest) :
    conclude input' (outcome.map fun _ => MatchTree.rename m.rename, furthest)
      = mirrorResult m.rename input' (conclude input (outcome, furthest)) := by
  cases outcome with
  | tooDeep pos => exact congrArg Except.error (errorAt_mirrored m _ _ _)
  | failed => exact congrArg Except.error (errorAt_mirrored m _ _ _)
  | matched stop tree =>
      simp only [Outcome.map, conclude, m.size_eq]
      split
      · rfl
      · split
        · exact congrArg Except.error (errorAt_mirrored m _ _ _)
        · exact congrArg Except.error (errorAt_mirrored m _ _ _)

/-- `single` commutes with renaming. -/
theorem single_renamed {σ : Type} {ρ : String → String} {outcome : Outcome MatchTree} {verdict : Verdict}
    {s s' : σ} (h : single (outcome, s) = (verdict.outcome, s')) :
    single (outcome.map fun _ => MatchTree.rename ρ, s) = ((verdict.rename ρ).outcome, s') := by
  obtain ⟨houtcome, rfl⟩ := Prod.mk.inj h
  refine Prod.ext ?_ rfl
  cases verdict with
  | matched stop nodes =>
      obtain ⟨tree, rfl, rfl⟩ := Outcome.map_eq_matched houtcome
      rfl
  | failed =>
      cases single_eq_failed (congrArg Prod.fst h)
      rfl

/-- **Mirrored rules give mirrored results**: `matchInput` at `j` is `mirrorResult` of `matchInput` at `i`, for all
    settings. -/
theorem matchInput_mirrored (m : Mirror table table' input input') {i j : Nat} (h : m.counterpart i j)
    (settings : Settings) :
    matchInput table' j input' settings
      = mirrorResult m.rename input' (matchInput table i input settings) := by
  obtain ⟨verdict, es, hrun⟩ := exists_runs table input i
  obtain ⟨es', hes, hrun'⟩ := hrun.mirrored m .nil (.rule h)
  rcases Nat.lt_or_ge settings.maxDepth (needed es) with hlt | hle
  · -- the limit is felt at the same call
    obtain ⟨pos, hpos, hresult⟩ := hrun.matchInput_of_lt hlt
    obtain ⟨pos', hpos', hresult'⟩ := hrun'.matchInput_of_lt (needed_of_alike hes ▸ hlt)
    rw [firstCall?_of_alike hes, hpos] at hpos'
    cases hpos'
    rw [hresult, hresult', errorAt_mirrored m]
    rfl
  · -- both runs are performed to their ends, and report the same
    have hattempt := hrun.attempt_eq (reportingEngine table input settings) hle {}
    have hattempt' := hrun'.attempt_eq (reportingEngine table' input' settings)
      (needed_of_alike hes ▸ hle) {}
    have hnoted := foldl_note_of_alike hes settings.maxExpected {}
    rw [matchInput_eq, matchInput_eq]
    rcases hrule : (reportingEngine table input settings).rule settings.maxDepth [] i 0 {} with
      ⟨outcome, furthest⟩
    rw [attempt_rule, hrule] at hattempt
    have hrule' := single_injective
      (hattempt'.trans ((congrArg _ hnoted).trans (single_renamed hattempt).symm))
    rw [hrule']
    exact conclude_mirrored m outcome furthest

end Match

end PegTree
