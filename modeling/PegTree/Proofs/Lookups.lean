import PegTree.Proofs.Defects
import PegTree.Proofs.Persistence
import PegTree.Proofs.Run

/-!
# `Proofs.Lookups` — which names a match looks up

A reference is resolved by `Table.indexOf?` each time it is evaluated, and the branch for `none` is there for tables
that nobody has checked. This module shows that a table with `table.Meets .referencesDeclared` never gets there:

* **in a run** (`Runs.resolved`): no event of it is `.dangling`;
* **on a trail** (`Walker.defines_of_mem_lookups`): `Walker.call` appends every name to `Trail.lookups` before it looks
  the name up, so the names of the whole trail are those of all references evaluated, before the limit and behind it.

Both go by the same fact: a goal that is matched is `Pattern.Closed`, since it stands in the pattern of a rule.
`Resolves` is the two together.
-/

namespace PegTree

/-! ## Patterns whose references are declared -/

namespace Pattern

variable {table : Table} {q p : Pattern} {ps : List Pattern}

/-- `q` within `.seq ps`, other than `.seq ps` itself, is within `.seq (p :: ps)`. -/
theorem Within.seq_cons (h : q.Within (.seq ps)) (hne : q ≠ .seq ps) : q.Within (.seq (p :: ps)) := by
  cases h with
  | here => exact absurd rfl hne
  | seq hmem hwithin => exact .seq (List.mem_cons_of_mem _ hmem) hwithin

theorem Within.choice_cons (h : q.Within (.choice ps)) (hne : q ≠ .choice ps) :
    q.Within (.choice (p :: ps)) := by
  cases h with
  | here => exact absurd rfl hne
  | choice hmem hwithin => exact .choice (List.mem_cons_of_mem _ hmem) hwithin

/-- Every `.ref name` within `p` has `table.Defines name`. -/
def Closed (table : Table) (p : Pattern) : Prop :=
  ∀ name, (Pattern.ref name).Within p → table.Defines name

theorem Closed.of_mem_seq (h : (Pattern.seq ps).Closed table) (hmem : p ∈ ps) : p.Closed table :=
  fun name hname => h name (.seq hmem hname)

theorem Closed.of_mem_choice (h : (Pattern.choice ps).Closed table) (hmem : p ∈ ps) : p.Closed table :=
  fun name hname => h name (.choice hmem hname)

theorem Closed.seq_tail (h : (Pattern.seq (p :: ps)).Closed table) : (Pattern.seq ps).Closed table :=
  fun name hname => h name (hname.seq_cons nofun)

theorem Closed.choice_tail (h : (Pattern.choice (p :: ps)).Closed table) : (Pattern.choice ps).Closed table :=
  fun name hname => h name (hname.choice_cons nofun)

theorem Closed.of_opt (h : (Pattern.opt p).Closed table) : p.Closed table :=
  fun name hname => h name (.opt hname)

theorem Closed.of_rep (h : (Pattern.rep p).Closed table) : p.Closed table :=
  fun name hname => h name (.rep hname)

end Pattern

/-- `table.Meets .referencesDeclared` in terms of `Pattern.Closed`. -/
theorem Table.Meets.closed {table : Table} (h : table.Meets .referencesDeclared) {index : Nat} {rule : Rule}
    (hrule : table.ruleAt? index = some rule) : rule.pattern.Closed table :=
  h rule (Table.ruleAt?_mem hrule)

namespace Match

variable {table : Table} {input : Input}

/-! ## Lookups of a run -/

/-- `.called index _ _` has a rule at `index`, and there is no `.dangling`. -/
def Event.Resolved (table : Table) : Event → Prop
  | .called index _ _ => ∃ rule, table.ruleAt? index = some rule
  | .dangling _ _ => False
  | .missed _ _ => True
  | .took _ _ _ => True

/-- `Pattern.Closed` for goals; the pattern of a rule is looked at when the rule is. -/
def Goal.Closed (table : Table) : Goal → Prop
  | .pattern p => p.Closed table
  | .rule _ => True

/-- **Every event of a run is `Event.Resolved`** in a table with `.referencesDeclared`. -/
theorem Runs.resolved (hdeclared : table.Meets .referencesDeclared) {active : List (Nat × Nat)} {goal : Goal}
    {pos : Nat} {verdict : Verdict} {es : List Event} (h : Runs table input active goal pos verdict es)
    (hgoal : goal.Closed table) : ∀ e ∈ es, e.Resolved table := by
  induction h with
  | literal _ => exact List.forall_mem_singleton.mpr trivial
  | literalMissed _ => exact List.forall_mem_singleton.mpr trivial
  | ref _ _ ih => exact ih trivial
  | refDangling hindex =>
      -- the name stands in the goal, so `indexOf?` finds it
      obtain ⟨_, _, hfound, _⟩ := (hgoal _ .here).indexOf?
      cases hindex.symm.trans hfound
  | seqNil => exact List.forall_mem_nil _
  | seqCons _ _ ih₁ ih₂ =>
      exact List.forall_mem_append.mpr ⟨ih₁ (hgoal.of_mem_seq List.mem_cons_self), ih₂ hgoal.seq_tail⟩
  | seqFailed _ ih => exact ih (hgoal.of_mem_seq List.mem_cons_self)
  | choiceNil => exact List.forall_mem_nil _
  | choiceHead _ ih => exact ih (hgoal.of_mem_choice List.mem_cons_self)
  | choiceTail _ _ ih₁ ih₂ =>
      exact List.forall_mem_append.mpr ⟨ih₁ (hgoal.of_mem_choice List.mem_cons_self), ih₂ hgoal.choice_tail⟩
  | optSome _ ih => exact ih hgoal.of_opt
  | optNone _ ih => exact ih hgoal.of_opt
  | repFailed _ ih => exact ih hgoal.of_rep
  | repIdle _ ih => exact ih hgoal.of_rep
  | repMore _ _ _ ih₁ ih₂ => exact List.forall_mem_append.mpr ⟨ih₁ hgoal.of_rep, ih₂ hgoal⟩
  | rule hrule _ _ ih => exact List.forall_mem_cons.mpr ⟨⟨_, hrule⟩, ih (hdeclared.closed hrule)⟩
  | ruleActive hrule _ => exact List.forall_mem_singleton.mpr ⟨_, hrule⟩
  | ruleMissing _ => exact List.forall_mem_nil _

/-! ## Lookups of a walk -/

variable {α β : Type} {walked : Walked α} {trail : Trail}

/-- Every name in `trail.lookups` is the name of a rule. -/
def Trail.Found (table : Table) (trail : Trail) : Prop :=
  ∀ name ∈ trail.lookups, table.Defines name

theorem Trail.Found.look (h : trail.Found table) {name : String} (hname : table.Defines name) :
    (trail.look name).Found table := by
  intro other hother
  rcases List.mem_append.mp hother with hbefore | hlast
  · exact h other hbefore
  · rw [List.mem_singleton.mp hlast]
    exact hname

/-- `walk` keeps `Trail.Found`, wherever it starts. -/
def Finds (table : Table) (walk : Walk α) : Prop :=
  ∀ pos trail, trail.Found table → (walk pos trail).2.Found table

theorem found_goOn {onMatch : Nat → α → Trail → Walked β} {onFailure : Trail → Walked β}
    (h : walked.2.Found table)
    (hmatch : ∀ stop product trail, trail.Found table → (onMatch stop product trail).2.Found table)
    (hfailure : ∀ trail, trail.Found table → (onFailure trail).2.Found table) :
    (goOn onMatch onFailure walked).2.Found table := by
  obtain ⟨_ | ⟨stop, product⟩, trail⟩ := walked
  · exact hfailure trail h
  · exact hmatch stop product trail h

/-- `pass` leaves `Trail.lookups` alone, before the walk and after it. -/
theorem Finds.tracked {walk : Walk α} (h : Finds table walk) : Finds table (tracked walk) :=
  fun pos trail htrail =>
    found_goOn (h pos (trail.pass pos) htrail) (fun _ _ _ htrail' => htrail') fun _ htrail' => htrail'

theorem Finds.rounds {walk : Walk (List MatchTree)} (h : Finds table walk) (fuel : Nat) :
    Finds table (rounds walk fuel) := by
  induction fuel with
  | zero => exact fun _ _ htrail => htrail
  | succ fuel ih =>
      intro pos trail htrail
      refine found_goOn (h pos trail htrail) (fun stop nodes trail' htrail' => ?_) fun _ htrail' => htrail'
      split
      · exact htrail'
      · exact ih stop trail' htrail'

namespace Walker

variable {walker : Walker} {call : String → Walk MatchTree} {ps : List Pattern}

theorem literal_finds (value : String) : Finds table (walker.literal value) := by
  intro pos trail htrail
  unfold literal
  split
  · exact htrail
  · exact htrail

theorem sequence_finds (hps : ∀ p ∈ ps, Finds table (walker.pattern call p)) :
    Finds table (walker.sequence call ps) := by
  induction ps with
  | nil => exact fun _ _ htrail => htrail
  | cons p ps ih =>
      intro pos trail htrail
      obtain ⟨hp, hmore⟩ := List.forall_mem_cons.mp hps
      rw [sequence]
      exact found_goOn (hp pos trail htrail) (fun stop _ trail' htrail' => ih hmore stop trail' htrail')
        fun _ htrail' => htrail'

theorem choice_finds (hps : ∀ p ∈ ps, Finds table (walker.pattern call p)) :
    Finds table (walker.choice call ps) := by
  induction ps with
  | nil => exact fun _ _ htrail => htrail
  | cons p ps ih =>
      intro pos trail htrail
      obtain ⟨hp, hmore⟩ := List.forall_mem_cons.mp hps
      rw [choice]
      refine found_goOn (hp pos trail htrail) (fun _ _ _ htrail' => htrail') fun trail' htrail' => ?_
      split
      · exact htrail'
      · exact ih hmore pos trail' htrail'

/-- A pattern evaluates only the references within it, so `call` has to be good for declared names alone. -/
theorem pattern_finds (hcall : ∀ name, table.Defines name → Finds table (call name)) {p : Pattern}
    (hclosed : p.Closed table) : Finds table (walker.pattern call p) := by
  induction p using Pattern.inductionOn with
  | literal value =>
      rw [pattern]
      exact Finds.tracked fun pos trail htrail => literal_finds value pos trail htrail
  | ref name =>
      rw [pattern]
      exact Finds.tracked fun pos trail htrail => hcall name (hclosed name .here) pos trail htrail
  | seq ps ih =>
      rw [pattern]
      exact (sequence_finds fun p hp => ih p hp (hclosed.of_mem_seq hp)).tracked
  | choice ps ih =>
      rw [pattern]
      exact (choice_finds fun p hp => ih p hp (hclosed.of_mem_choice hp)).tracked
  | opt p ih =>
      rw [pattern]
      refine Finds.tracked fun pos trail htrail => ?_
      exact found_goOn (ih hclosed.of_opt pos trail htrail) (fun _ _ _ htrail' => htrail') fun _ htrail' => htrail'
  | rep p ih =>
      rw [pattern]
      exact Finds.tracked fun pos trail htrail => (ih hclosed.of_rep).rounds _ pos trail htrail

/-- The one place where a name gets onto the trail. -/
theorem call_finds {rule : Nat → Walk MatchTree} (hrule : ∀ index, Finds table (rule index)) {name : String}
    (hname : table.Defines name) : Finds table (walker.call rule name) := by
  intro pos trail htrail
  unfold Walker.call
  split
  · exact htrail.look hname
  · exact hrule _ pos _ (htrail.look hname)

theorem rule_finds (hdeclared : walker.table.Meets .referencesDeclared) (depth : Nat) (active : List (Nat × Nat))
    (index : Nat) : Finds walker.table (walker.rule depth active index) := by
  induction depth generalizing active index with
  | zero =>
      rw [rule]
      refine Finds.tracked fun pos trail htrail => ?_
      split
      · exact htrail
      · split
        · exact htrail
        · exact htrail
  | succ depth ih =>
      rw [rule]
      refine Finds.tracked fun pos trail htrail => ?_
      split
      · exact htrail
      · split
        · exact htrail
        · next rule hrule =>
            split
            · exact htrail
            · have hcall : ∀ name, walker.table.Defines name →
                  Finds walker.table (walker.call (walker.rule depth ((index, pos) :: active)) name) :=
                fun _ hname => call_finds (ih _) hname
              exact pattern_finds hcall (hdeclared.closed hrule) pos trail htrail

/-- **Every name that a walk looks up is the name of a rule**, on the whole trail. -/
theorem defines_of_mem_lookups (hdeclared : walker.table.Meets .referencesDeclared) (index : Nat) {name : String}
    (hname : name ∈ (walker.run index).2.lookups) : walker.table.Defines name :=
  rule_finds hdeclared walker.settings.maxDepth [] index 0 {} (fun _ h => absurd h List.not_mem_nil) name hname

/-- `root := sign? digit`, one level: the call of `sign` sets the limit, and `digit` is looked up behind it. -/
example :
    let table : Table :=
      ⟨[⟨"root", .seq [.opt (.ref "sign"), .ref "digit"]⟩, ⟨"sign", .literal "-"⟩, ⟨"digit", .literal "1"⟩]⟩
    let walked := Walker.run ⟨table, .ofTokens ["1"], { maxDepth := 1 }⟩ 0
    walked.2.limit = some 0 ∧ walked.2.lookups = ["sign", "digit"] := by
  decide

end Walker

/-! ## Both -/

/-- **No lookup fails** while the rule at `index` of `table` is matched from place 0 of `input`. -/
structure Resolves (table : Table) (input : Input) (settings : Settings) (index : Nat) : Prop where
  /-- Up to the limit: what the engine notes is one list of events, for every `note`, and each is `Resolved`. -/
  events : ∃ events : List Event, (∀ e ∈ events, e.Resolved table) ∧
    ∀ (σ : Type) (note : σ → Event → σ) (s : σ),
      ((⟨table, input, note⟩ : Engine σ).rule settings.maxDepth [] index 0 s).2 = events.foldl note s
  /-- `matchInput` answers as the walk does whose names the next field is about. -/
  result : matchInput table index input settings
    = conclude input (outcomeOf (Walker.run ⟨table, input, settings⟩ index),
        (Walker.run ⟨table, input, settings⟩ index).2.furthest)
  /-- Before the limit and behind it: `indexOf?` finds every name on the trail, and the rule of that name is there. -/
  lookups : ∀ name ∈ (Walker.run ⟨table, input, settings⟩ index).2.lookups,
    ∃ next rule, table.indexOf? name = some next ∧ table.ruleAt? next = some rule ∧ rule.name = name

theorem resolves_of_meets (hdeclared : table.Meets .referencesDeclared) (input : Input) (settings : Settings)
    (index : Nat) : Resolves table input settings index where
  events := by
    obtain ⟨verdict, es, hrun⟩ := exists_runs table input index
    have hresolved := hrun.resolved hdeclared trivial
    -- a limit leaves the first events of the run
    have hsubset := (upTo_isPrefix settings.maxDepth es).subset
    refine ⟨upTo settings.maxDepth es, fun e he => hresolved e (hsubset he), ?_⟩
    intro σ note s
    let engine : Engine σ := ⟨table, input, note⟩
    have hrun : Runs engine.table engine.input [] (.rule index) 0 verdict es := hrun
    exact congrArg Prod.snd (hrun.performs (Nat.zero_le _) settings.maxDepth s)
  result := matchInput_eq_walk table index input settings
  lookups name hname := by
    let walker : Walker := ⟨table, input, settings⟩
    have hdefines : walker.table.Defines name := Walker.defines_of_mem_lookups hdeclared index hname
    exact hdefines.indexOf?

end Match

end PegTree
