import PegTree.Proofs.ExpectationCap
import PegTree.Proofs.Guarantees
import PegTree.Proofs.Printing

/-!
# `Proofs.FurthestReach` — how far a match got, and what its error says of it

A match reaches a place when a literal is missed there or when one that stands in the input ends there. The
engine keeps only the places of missed literals, so an error tells how far the match got only if the match
cannot end in another way than by a missed literal.

* **Where attempts end** (`Runs.accounts`). Every place that a run reaches is accounted for: the run matches at
  least that far, or an attempt got stuck there or further on. In a table that was checked there are two ways
  to get stuck: a literal is missed, or a rule is called where it is already being matched (`Reentered`).
* **Nothing happens further on** (`Runs.bounded`). Calls are made, and matches end, at places that were reached.

Hence the position of an error is the furthest place reached, or a left-recursive call was refused at that place
(`parse_position`). The second does happen: nothing is noted of a refused call, and the error then points to
an earlier place (`parse_position_refused`).
-/

namespace PegTree.Match

/-! ## Places that are reached -/

/-- The place that an event shows to be reached: where a literal is missed, or the `stop` of one that is taken. -/
def Event.reach : Event → Nat
  | .missed _ pos => pos
  | .took _ _ stop => stop
  | .called _ _ _ => 0
  | .dangling _ _ => 0

/-- **The furthest place reached**, `0` if no literal was tried. -/
def reached (es : List Event) : Nat :=
  (es.map Event.reach).max?.getD 0

variable {es fs : List Event} {e : Event} {place : Nat}

theorem reach_le_reached (h : e ∈ es) : e.reach ≤ reached es := by
  have hplace : e.reach ∈ es.map Event.reach := List.mem_map_of_mem h
  exact List.le_max?_getD_of_mem hplace

theorem reached_cases (es : List Event) : reached es = 0 ∨ ∃ e ∈ es, e.reach = reached es := by
  unfold reached
  cases hmax : (es.map Event.reach).max? with
  | none => exact .inl rfl
  | some place => exact .inr (List.mem_map.mp (List.max?_mem hmax))

theorem mem_misses_iff {pos : Nat} {literal : String} :
    (pos, literal) ∈ misses es ↔ .missed literal pos ∈ es := by
  unfold misses
  rw [List.mem_filterMap]
  constructor
  · rintro ⟨e, he, hmiss⟩
    cases e with
    | missed literal' pos' =>
        cases hmiss
        exact he
    | took _ _ _ => cases hmiss
    | called _ _ _ => cases hmiss
    | dangling _ _ => cases hmiss
  · intro he
    exact ⟨_, he, rfl⟩

theorem furthestOf_le_reached (es : List Event) : furthestOf (misses es) ≤ reached es := by
  by_cases hnone : misses es = []
  · rw [hnone]
    exact Nat.zero_le _
  · obtain ⟨⟨pos, literal⟩, hmiss, hplace⟩ := exists_furthestOf hnone
    rw [← hplace]
    exact reach_le_reached (mem_misses_iff.mp hmiss)

/-! ## Getting stuck -/

/-- The event is no call, or a call at a level `≥ floor`. -/
def Event.NotAbove (floor : Nat) : Event → Prop
  | .called _ _ level => floor ≤ level
  | _ => True

/-- **A rule is called at a place where it is already being matched.** The outer call has not ended when the inner
    one is made: all calls between them are at levels above `outer`. -/
def Reentered (pos : Nat) (es : List Event) : Prop :=
  ∃ index outer inner before between after,
    es = before ++ .called index pos outer :: between ++ .called index pos inner :: after ∧
    outer < inner ∧ ∀ e ∈ between, e.NotAbove (outer + 1)

theorem Reentered.mono {pos : Nat} (h : Reentered pos es) (hpart : es <:+: fs) : Reentered pos fs := by
  obtain ⟨index, outer, inner, before, between, after, rfl, hlevels⟩ := h
  obtain ⟨front, back, rfl⟩ := hpart
  refine ⟨index, outer, inner, front ++ before, between, after ++ back, ?_, hlevels⟩
  simp only [List.append_assoc, List.cons_append]

/-- **An attempt got stuck at `pos`**: a literal was missed there, or a rule was called there that is in `active` at
    `pos`, or that is `Reentered` within `es`. -/
def Stuck (active : List (Nat × Nat)) (pos : Nat) (es : List Event) : Prop :=
  (∃ literal, .missed literal pos ∈ es) ∨
    (∃ index level, .called index pos level ∈ es ∧ (index, pos) ∈ active) ∨ Reentered pos es

variable {active : List (Nat × Nat)}

theorem Stuck.mono {pos : Nat} (h : Stuck active pos es) (hpart : es <:+: fs) : Stuck active pos fs := by
  rcases h with ⟨literal, hmissed⟩ | ⟨index, level, hcalled, hactive⟩ | hreentered
  · exact .inl ⟨literal, hpart.subset hmissed⟩
  · exact .inr (.inl ⟨index, level, hpart.subset hcalled, hactive⟩)
  · exact .inr (.inr (hreentered.mono hpart))

/-- A call in `(index, pos) :: active` is in `active`, or it is `Reentered` once the event of the outer call is put
    before. -/
theorem Stuck.called {index pos place : Nat} (h : Stuck ((index, pos) :: active) place es)
    (hlevels : ∀ e ∈ es, e.NotAbove (active.length + 1)) :
    Stuck active place (.called index pos active.length :: es) := by
  have hpart : es <:+: .called index pos active.length :: es := (List.suffix_cons _ _).isInfix
  rcases h with ⟨literal, hmissed⟩ | ⟨index', level, hcalled, hactive⟩ | hreentered
  · exact .inl ⟨literal, hpart.subset hmissed⟩
  · rcases List.mem_cons.mp hactive with heq | hactive
    · -- the call that is refused lies below the call of this rule
      cases heq
      obtain ⟨between, after, rfl⟩ := List.append_of_mem hcalled
      refine .inr (.inr ⟨index, active.length, level, [], between, after, rfl, hlevels _ hcalled, ?_⟩)
      intro e hbetween
      exact hlevels e (List.mem_append_left _ hbetween)
    · exact .inr (.inl ⟨index', level, hpart.subset hcalled, hactive⟩)
  · exact .inr (.inr (hreentered.mono hpart))

/-! ## Levels, and places of calls -/

variable {table : Table} {input : Input} {goal : Goal} {pos : Nat} {verdict : Verdict}

/-- The event is no call, or a call at a place `≤ bound`. -/
def Event.CalledBy (bound : Nat) : Event → Prop
  | .called _ place _ => place ≤ bound
  | _ => True

theorem Event.NotAbove.of_succ {floor : Nat} (h : e.NotAbove (floor + 1)) : e.NotAbove floor := by
  cases e with
  | called index place level => exact Nat.le_of_succ_le h
  | missed _ _ => trivial
  | took _ _ _ => trivial
  | dangling _ _ => trivial

/-- The level of every call in a run is `≥ active.length`. -/
theorem Runs.notAbove (h : Runs table input active goal pos verdict es) :
    ∀ e ∈ es, e.NotAbove active.length := by
  induction h with
  | literal _ | literalMissed _ | refDangling _ => exact List.forall_mem_singleton.mpr trivial
  | seqNil | choiceNil | ruleMissing _ => exact List.forall_mem_nil _
  | ref _ _ ih => exact ih
  | seqFailed _ ih => exact ih
  | choiceHead _ ih => exact ih
  | optSome _ ih => exact ih
  | optNone _ ih => exact ih
  | repFailed _ ih => exact ih
  | repIdle _ ih => exact ih
  | seqCons _ _ ih₁ ih₂ | choiceTail _ _ ih₁ ih₂ | repMore _ _ _ ih₁ ih₂ =>
      exact List.forall_mem_append.mpr ⟨ih₁, ih₂⟩
  | rule _ _ _ ih =>
      refine List.forall_mem_cons.mpr ⟨Nat.le_refl _, fun e he => ?_⟩
      exact Event.NotAbove.of_succ (ih e he)
  | ruleActive _ _ => exact List.forall_mem_singleton.mpr (Nat.le_refl _)

/-- The verdict is a match with `place ≤ stop`. -/
def Verdict.Reaches (place : Nat) : Verdict → Prop
  | .matched stop _ => place ≤ stop
  | .failed => False

/-- The verdict is `.failed`, or a match with `stop ≤ bound`. -/
def Verdict.EndsBy (bound : Nat) : Verdict → Prop
  | .matched stop _ => stop ≤ bound
  | .failed => True

@[simp] theorem Verdict.reaches_prepend (nodes : List MatchTree) (verdict : Verdict) :
    (verdict.prepend nodes).Reaches place ↔ verdict.Reaches place := by
  cases verdict <;> rfl

@[simp] theorem Verdict.reaches_wrap (name : String) (pos : Nat) (verdict : Verdict) :
    (verdict.wrap name pos).Reaches place ↔ verdict.Reaches place := by
  cases verdict <;> rfl

@[simp] theorem Verdict.endsBy_prepend (nodes : List MatchTree) (verdict : Verdict) :
    (verdict.prepend nodes).EndsBy place ↔ verdict.EndsBy place := by
  cases verdict <;> rfl

@[simp] theorem Verdict.endsBy_wrap (name : String) (pos : Nat) (verdict : Verdict) :
    (verdict.wrap name pos).EndsBy place ↔ verdict.EndsBy place := by
  cases verdict <;> rfl

/-- **Nothing happens past what is reached.** A bound on `pos` and on every `Event.reach` is a bound on the end of
    the match and on the places of calls. -/
theorem Runs.bounded (h : Runs table input active goal pos verdict es) {bound : Nat} (hpos : pos ≤ bound)
    (hreach : ∀ e ∈ es, e.reach ≤ bound) : verdict.EndsBy bound ∧ ∀ e ∈ es, e.CalledBy bound := by
  induction h with
  | literal _ => exact ⟨hreach _ (List.mem_singleton_self _), List.forall_mem_singleton.mpr trivial⟩
  | literalMissed _ | refDangling _ => exact ⟨trivial, List.forall_mem_singleton.mpr trivial⟩
  | ref _ _ ih => exact ih hpos hreach
  | seqNil => exact ⟨hpos, List.forall_mem_nil _⟩
  | seqCons _ _ ih₁ ih₂ =>
      obtain ⟨hhead, htail⟩ := List.forall_mem_append.mp hreach
      obtain ⟨hmid, hcalls₁⟩ := ih₁ hpos hhead
      obtain ⟨hend, hcalls₂⟩ := ih₂ hmid htail
      exact ⟨(Verdict.endsBy_prepend _ _).mpr hend, List.forall_mem_append.mpr ⟨hcalls₁, hcalls₂⟩⟩
  | seqFailed _ ih => exact ih hpos hreach
  | choiceNil => exact ⟨trivial, List.forall_mem_nil _⟩
  | choiceHead _ ih => exact ih hpos hreach
  | choiceTail _ _ ih₁ ih₂ =>
      obtain ⟨hhead, htail⟩ := List.forall_mem_append.mp hreach
      obtain ⟨_, hcalls₁⟩ := ih₁ hpos hhead
      obtain ⟨hend, hcalls₂⟩ := ih₂ hpos htail
      exact ⟨hend, List.forall_mem_append.mpr ⟨hcalls₁, hcalls₂⟩⟩
  | optSome _ ih => exact ih hpos hreach
  | optNone _ ih | repFailed _ ih | repIdle _ ih => exact ⟨hpos, (ih hpos hreach).2⟩
  | repMore _ _ _ ih₁ ih₂ =>
      obtain ⟨hround, hrest⟩ := List.forall_mem_append.mp hreach
      obtain ⟨hmid, hcalls₁⟩ := ih₁ hpos hround
      obtain ⟨hend, hcalls₂⟩ := ih₂ hmid hrest
      exact ⟨(Verdict.endsBy_prepend _ _).mpr hend, List.forall_mem_append.mpr ⟨hcalls₁, hcalls₂⟩⟩
  | rule _ _ _ ih =>
      obtain ⟨hend, hcalls⟩ := ih hpos (List.forall_mem_cons.mp hreach).2
      exact ⟨(Verdict.endsBy_wrap _ _ _).mpr hend, List.forall_mem_cons.mpr ⟨hpos, hcalls⟩⟩
  | ruleActive _ _ => exact ⟨trivial, List.forall_mem_singleton.mpr hpos⟩
  | ruleMissing _ => exact ⟨trivial, List.forall_mem_nil _⟩

/-! ## Every place that is reached is accounted for -/

/-- There is something to try: a reference is to a declared name, and a choice has alternatives. -/
def Offers (table : Table) : Pattern → Prop
  | .ref name => table.Defines name
  | .choice ps => ps ≠ []
  | _ => True

/-- `Offers` everywhere in the pattern; of a rule, that it is declared. -/
def Goal.Offers (table : Table) : Goal → Prop
  | .pattern p => p.Everywhere (Match.Offers table)
  | .rule index => ∃ rule, table.ruleAt? index = some rule

/-- `place` is at most `pos`, or at most the `reach` of some event. -/
def Visited (pos : Nat) (es : List Event) (place : Nat) : Prop :=
  place ≤ pos ∨ ∃ e ∈ es, place ≤ e.reach

theorem Visited.append_cases {pos : Nat} (h : Visited pos (es ++ fs) place) :
    Visited pos es place ∨ ∃ e ∈ fs, place ≤ e.reach := by
  rcases h with hstart | ⟨e, he, hle⟩
  · exact .inl (.inl hstart)
  · rcases List.mem_append.mp he with he | he
    · exact .inl (.inr ⟨e, he, hle⟩)
    · exact .inr ⟨e, he, hle⟩

/-- **How a place is accounted for**: the match ends at `place` or further on, or the attempt is `Stuck` there or
    further on. -/
def Accounted (active : List (Nat × Nat)) (verdict : Verdict) (es : List Event) (place : Nat) : Prop :=
  (∃ further, place ≤ further ∧ Stuck active further es) ∨ verdict.Reaches place

theorem Accounted.stuck {pos : Nat} (hle : place ≤ pos) (h : Stuck active pos es) :
    Accounted active verdict es place :=
  .inl ⟨pos, hle, h⟩

/-- `Stuck` passes from a part `es` to the whole `fs`; what the part matched may be given up, so `hverdict` has to
    account for it. -/
theorem Accounted.mono {verdict' : Verdict} (h : Accounted active verdict es place) (hpart : es <:+: fs)
    (hverdict : verdict.Reaches place → Accounted active verdict' fs place) :
    Accounted active verdict' fs place := by
  rcases h with ⟨further, hle, hstuck⟩ | hreaches
  · exact .stuck hle (hstuck.mono hpart)
  · exact hverdict hreaches

/-- One attempt after the other: every place that the first one only matched is `Visited` by the second, which
    starts at `mid`. -/
theorem Accounted.andThen {pos mid : Nat} {xs : List MatchTree}
    (h₁ : ∀ place, Visited pos es place → Accounted active (.matched mid xs) es place)
    (h₂ : ∀ place, Visited mid fs place → Accounted active verdict fs place)
    (hvisited : Visited pos (es ++ fs) place) :
    Accounted active (verdict.prepend xs) (es ++ fs) place := by
  have hsecond : Visited mid fs place → Accounted active (verdict.prepend xs) (es ++ fs) place := by
    intro hmid
    refine (h₂ place hmid).mono (List.suffix_append es fs).isInfix fun hreaches => .inr ?_
    exact (Verdict.reaches_prepend xs verdict).mpr hreaches
  rcases hvisited.append_cases with hfirst | hafter
  · exact (h₁ place hfirst).mono (List.prefix_append es fs).isInfix fun hmid => hsecond (.inl hmid)
  · exact hsecond (.inr hafter)

/-- **Every visited place is accounted for**, if the table and the goal satisfy `Offers`. A closed run with a
    failing verdict is therefore `Stuck` at its furthest place. -/
theorem Runs.accounts (htable : ∀ rule ∈ table.rules, rule.pattern.Everywhere (Match.Offers table))
    (h : Runs table input active goal pos verdict es) (hgoal : goal.Offers table) :
    ∀ place, Visited pos es place → Accounted active verdict es place := by
  -- by induction on the run; a failure has to be put down to something stuck, a match covers what it reached
  induction h with
  | literal hliteral =>
      rintro place (hstart | ⟨e, he, hle⟩)
      · exact .inr (Nat.le_trans hstart (Input.matchLiteral?_bounds hliteral).1)
      · rw [List.mem_singleton.mp he] at hle
        exact .inr hle
  | literalMissed hliteral =>
      rintro place (hstart | ⟨e, he, hle⟩)
      · exact .stuck hstart (.inl ⟨_, List.mem_singleton_self _⟩)
      · rw [List.mem_singleton.mp he] at hle
        exact .stuck hle (.inl ⟨_, List.mem_singleton_self _⟩)
  | ref hindex _ ih =>
      obtain ⟨index, rule, hfound, hrule, _⟩ := (Pattern.everywhere_ref.mp hgoal).indexOf?
      cases hindex.symm.trans hfound
      exact ih ⟨rule, hrule⟩
  | refDangling hindex =>
      obtain ⟨_, _, hfound, _⟩ := (Pattern.everywhere_ref.mp hgoal).indexOf?
      cases hindex.symm.trans hfound
  | seqNil =>
      rintro place (hstart | ⟨e, he, _⟩)
      · exact .inr hstart
      · exact absurd he List.not_mem_nil
  | seqCons _ _ ih₁ ih₂ =>
      obtain ⟨hhead, htail⟩ := List.forall_mem_cons.mp (Pattern.everywhere_seq.mp hgoal).2
      have hrest := ih₂ (Pattern.everywhere_seq.mpr ⟨trivial, htail⟩)
      intro place hvisited
      exact .andThen (ih₁ hhead) hrest hvisited
  | seqFailed _ ih =>
      exact ih ((Pattern.everywhere_seq.mp hgoal).2 _ List.mem_cons_self)
  | choiceNil => exact absurd rfl (Pattern.everywhere_choice.mp hgoal).1
  | choiceHead _ ih =>
      exact ih ((Pattern.everywhere_choice.mp hgoal).2 _ List.mem_cons_self)
  | @choiceTail active p ps pos verdict es fs _ htail ih₁ ih₂ =>
      obtain ⟨hhead, hothers⟩ := List.forall_mem_cons.mp (Pattern.everywhere_choice.mp hgoal).2
      intro place hvisited
      rcases hvisited.append_cases with hfirst | ⟨e, he, hle⟩
      · -- the first alternative failed, so it was stuck
        exact (ih₁ hhead place hfirst).mono (List.prefix_append es fs).isInfix False.elim
      · have hothersLeft : ps ≠ [] := by
          rintro rfl
          cases htail
          exact absurd he List.not_mem_nil
        have hrest := ih₂ (Pattern.everywhere_choice.mpr ⟨hothersLeft, hothers⟩) place (.inr ⟨e, he, hle⟩)
        exact hrest.mono (List.suffix_append es fs).isInfix .inr
  | optSome _ ih => exact ih (Pattern.everywhere_opt.mp hgoal).2
  | optNone _ ih =>
      intro place hvisited
      exact (ih (Pattern.everywhere_opt.mp hgoal).2 place hvisited).mono List.infix_rfl False.elim
  | repFailed _ ih =>
      intro place hvisited
      exact (ih (Pattern.everywhere_rep.mp hgoal).2 place hvisited).mono List.infix_rfl False.elim
  | repIdle _ ih =>
      intro place hvisited
      exact (ih (Pattern.everywhere_rep.mp hgoal).2 place hvisited).mono List.infix_rfl .inr
  | repMore _ _ _ ih₁ ih₂ =>
      intro place hvisited
      exact .andThen (ih₁ (Pattern.everywhere_rep.mp hgoal).2) (ih₂ hgoal) hvisited
  | @rule active index rule pos verdict es hrule _ hbody ih =>
      have hinside := ih (htable rule (Table.ruleAt?_mem hrule))
      intro place hvisited
      have hvisited' : Visited pos es place := by
        rcases hvisited with hstart | ⟨e, he, hle⟩
        · exact .inl hstart
        · rcases List.mem_cons.mp he with rfl | he
          · exact .inl (Nat.le_trans hle (Nat.zero_le _))
          · exact .inr ⟨e, he, hle⟩
      rcases hinside place hvisited' with ⟨further, hle, hstuck⟩ | hreaches
      · exact .stuck hle (hstuck.called hbody.notAbove)
      · exact .inr ((Verdict.reaches_wrap _ _ _).mpr hreaches)
  | @ruleActive active index rule pos _ hactive =>
      have hrefused : Stuck active pos [.called index pos active.length] :=
        .inr (.inl ⟨index, _, List.mem_singleton_self _, hactive⟩)
      rintro place (hstart | ⟨e, he, hle⟩)
      · exact .stuck hstart hrefused
      · rw [List.mem_singleton.mp he] at hle
        exact .stuck (Nat.le_trans hle (Nat.zero_le _)) hrefused
  | ruleMissing hnone =>
      obtain ⟨rule, hrule⟩ := hgoal
      cases hnone.symm.trans hrule

/-! ## Whole inputs -/

variable {index : Nat} {settings : Settings} {error : ParseError}

/-- A match that the limit does not stop is a run from no active rules, whose events are on record. -/
theorem exists_runs_record (hlimit : ∀ deep, (record table index input settings).1 ≠ .tooDeep deep) :
    ∃ verdict, Runs table input [] (.rule index) 0 verdict (record table index input settings).2 ∧
      (record table index input settings).1.map (fun _ tree => [tree]) = verdict.outcome := by
  obtain ⟨verdict, es, hrun⟩ := exists_runs table input index
  by_cases hdepth : needed es ≤ settings.maxDepth
  · have hrecorded : single (record table index input settings) = (verdict.outcome, es) :=
      hrun.recorded hdepth
    have hes : (record table index input settings).2 = es := congrArg Prod.snd hrecorded
    refine ⟨verdict, ?_, congrArg Prod.fst hrecorded⟩
    rw [hes]
    exact hrun
  · obtain ⟨deep, s', _, hattempt⟩ := hrun.attempt_tooDeep (recorder table input) (Nat.not_le.mp hdepth) []
    have hrecorded : record table index input settings = (.tooDeep deep, s') := single_injective hattempt
    exact absurd (congrArg Prod.fst hrecorded) (hlimit deep)

/-- **Where an error is**, unless it is about the limit: at `furthestOf missed`, or at
    `max stop (furthestOf missed)` if the rule matched up to `stop`. -/
theorem conclude_position {limit : Nat} (hlimit : 1 ≤ limit) {outcome : Outcome MatchTree}
    {missed : List (Nat × String)} (herror : conclude input (outcome, summary limit missed) = .error error)
    (hkind : error.kind = .noMatch ∨ error.kind = .trailingInput) :
    (outcome = .failed ∧ error.position = furthestOf missed) ∨
      ∃ stop tree, outcome = .matched stop tree ∧ error.position = max stop (furthestOf missed) := by
  cases outcome with
  | tooDeep deep =>
      cases herror
      rcases hkind with hkind | hkind <;> cases hkind
  | failed =>
      cases herror
      exact .inl ⟨rfl, rfl⟩
  | matched stop tree =>
      refine .inr ⟨stop, tree, rfl, ?_⟩
      have hstop : stop ≠ input.size := by
        intro heq
        simp only [conclude, if_pos heq] at herror
        cases herror
      by_cases hmiss : ∃ miss ∈ missed, stop ≤ miss.1
      · rw [conclude_blaming hlimit hstop hmiss] at herror
        cases herror
        obtain ⟨miss, hmem, hle⟩ := hmiss
        exact (Nat.max_eq_right (Nat.le_trans hle (le_furthestOf hmem))).symm
      · rw [conclude_ending hstop (.inr hmiss)] at herror
        cases herror
        refine (Nat.max_eq_left ?_).symm
        by_cases hnone : missed = []
        · rw [hnone]
          exact Nat.zero_le _
        · obtain ⟨miss, hmem, hplace⟩ := exists_furthestOf hnone
          rw [← hplace]
          exact Nat.le_of_not_le fun hle => hmiss ⟨miss, hmem, hle⟩

/-- `error.position` is the least bound of the furthest miss and the end of the match. -/
theorem exists_runs_position (hlimit : 1 ≤ settings.maxExpected)
    (herror : matchInput table index input settings = .error error)
    (hkind : error.kind = .noMatch ∨ error.kind = .trailingInput) :
    ∃ verdict, Runs table input [] (.rule index) 0 verdict (record table index input settings).2 ∧
      furthestOf (misses (record table index input settings).2) ≤ error.position ∧
      (∀ place, verdict.Reaches place → place ≤ error.position) ∧
      ∀ bound, verdict.EndsBy bound → furthestOf (misses (record table index input settings).2) ≤ bound →
        error.position ≤ bound := by
  rw [matchInput_eq_conclude] at herror
  have hposition := conclude_position hlimit herror hkind
  have hnotDeep : ∀ deep, (record table index input settings).1 ≠ .tooDeep deep := by
    intro deep hdeep
    rcases hposition with ⟨hfailed, _⟩ | ⟨stop, tree, hmatched, _⟩
    · cases hdeep.symm.trans hfailed
    · cases hdeep.symm.trans hmatched
  obtain ⟨verdict, hrun, houtcome⟩ := exists_runs_record hnotDeep
  refine ⟨verdict, hrun, ?_⟩
  rcases hposition with ⟨hfailed, hposition⟩ | ⟨stop, tree, hmatched, hposition⟩
  · rw [hfailed] at houtcome
    rw [hposition]
    cases verdict with
    | matched stop nodes => cases houtcome
    | failed => exact ⟨Nat.le_refl _, fun _ h => absurd h id, fun _ _ h => h⟩
  · rw [hmatched] at houtcome
    rw [hposition]
    cases verdict with
    | failed => cases houtcome
    | matched stop' nodes =>
        cases houtcome
        refine ⟨Nat.le_max_right _ _, fun place hplace => ?_, fun bound hend hmissed => ?_⟩
        · exact Nat.le_trans hplace (Nat.le_max_left _ _)
        · exact Nat.max_le.mpr ⟨hend, hmissed⟩

theorem Reentered.le_of_calledBy {bound : Nat} (h : Reentered place es) (hcalls : ∀ e ∈ es, e.CalledBy bound) :
    place ≤ bound := by
  obtain ⟨index, outer, inner, before, between, after, rfl, _⟩ := h
  have hinner : Event.called index place inner
      ∈ before ++ .called index place outer :: between ++ .called index place inner :: after :=
    List.mem_append_right _ List.mem_cons_self
  exact hcalls _ hinner

/-- **The error is at `reached`**, or before it, and then the rule of a call at `reached` was `Reentered` there. -/
theorem matchInput_position (htable : ∀ rule ∈ table.rules, rule.pattern.Everywhere (Match.Offers table))
    (hstart : ∃ rule, table.ruleAt? index = some rule) (hlimit : 1 ≤ settings.maxExpected)
    (herror : matchInput table index input settings = .error error)
    (hkind : error.kind = .noMatch ∨ error.kind = .trailingInput) :
    error.position = reached (record table index input settings).2 ∨
      (error.position < reached (record table index input settings).2 ∧
        Reentered (reached (record table index input settings).2) (record table index input settings).2) := by
  obtain ⟨verdict, hrun, hmissed, hmatched, hleast⟩ := exists_runs_position hlimit herror hkind
  generalize (record table index input settings).2 = es at *
  obtain ⟨hends, hcalls⟩ := hrun.bounded (Nat.zero_le (reached es)) fun e he => reach_le_reached he
  have hle : error.position ≤ reached es := hleast _ hends (furthestOf_le_reached es)
  have hvisited : Visited 0 es (reached es) := by
    rcases reached_cases es with hzero | ⟨e, he, heq⟩
    · exact .inl (Nat.le_of_eq hzero)
    · exact .inr ⟨e, he, Nat.le_of_eq heq.symm⟩
  rcases hrun.accounts htable hstart _ hvisited with ⟨further, hfurther, hstuck⟩ | hreaches
  · rcases hstuck with ⟨literal, hmiss⟩ | ⟨_, _, _, hactive⟩ | hreentered
    · -- a literal was missed at the furthest place, and this is what the error tells
      have hnoted : further ≤ furthestOf (misses es) := le_furthestOf (mem_misses_iff.mpr hmiss)
      exact .inl (Nat.le_antisymm hle (Nat.le_trans hfurther (Nat.le_trans hnoted hmissed)))
    · exact absurd hactive List.not_mem_nil
    · have heq : further = reached es := Nat.le_antisymm (hreentered.le_of_calledBy hcalls) hfurther
      rw [heq] at hreentered
      rcases Nat.eq_or_lt_of_le hle with hsame | hbefore
      · exact .inl hsame
      · exact .inr ⟨hbefore, hreentered⟩
  · exact .inl (Nat.le_antisymm hle (hmatched _ hreaches))

end PegTree.Match

namespace PegTree.Parser

open Match

variable {parser : Parser} {grammar : String} {input : Input} {error : ParseError}

theorem ofText_eq_ok {settings : Settings} (h : ofText grammar settings = .ok parser) :
    Grammar.compile grammar = .ok parser.table ∧ parser.settings = settings := by
  unfold ofText at h
  cases hcompile : Grammar.compile grammar with
  | error error =>
      rw [hcompile] at h
      cases h
  | ok table =>
      simp only [hcompile, ofTable] at h
      split at h
      · cases h
      · split at h
        · cases h
        · cases h
          exact ⟨rfl, rfl⟩

theorem ofText_of_compile {table : Table} {settings : Settings} (hcompile : Grammar.compile grammar = .ok table)
    (hrules : table.isEmpty = false) (hvalid : table.defect? = none) :
    ofText grammar settings = .ok ⟨table, settings⟩ := by
  rw [ofText, hcompile]
  simp [ofTable, hrules, hvalid]

/-- The table that `ofText` compiles satisfies `Offers` everywhere. -/
theorem offers_of_ofText {settings : Settings} (h : ofText grammar settings = .ok parser) :
    ∀ rule ∈ parser.table.rules, rule.pattern.Everywhere (Match.Offers parser.table) := by
  intro rule hrule q hq
  have hdeclares := Grammar.declares_of_compile (ofText_eq_ok h).1
  have hsettled := (Grammar.settled_of_declares hdeclares rule hrule).2 q hq
  have hdeclared := (Built.ofText h).checked.2 .referencesDeclared rule hrule
  cases q with
  | ref name => exact hdeclared name (Pattern.mem_parts_iff.mp hq)
  | choice ps => exact hsettled.1
  | literal _ => trivial
  | seq _ => trivial
  | opt _ => trivial
  | rep _ => trivial

theorem matchInput_of_parse (h : parser.parse input = .error error) :
    matchInput parser.table 0 input parser.settings = .error error := by
  unfold parse parseFrom at h
  cases hresult : matchInput parser.table 0 input parser.settings with
  | ok found =>
      rw [hresult] at h
      cases h
  | error error' =>
      rw [hresult] at h
      cases h
      rfl

/-- **How far the error of a parse tells that it got.** For a grammar text that is accepted and an error `.noMatch`
    or `.trailingInput`, `error.position = reached events`; or `error.position < reached events`, and a rule was
    `Reentered` at `reached events`. -/
theorem parse_position (hparser : ofText grammar {} = .ok parser) (herror : parser.parse input = .error error)
    (hkind : error.kind = .noMatch ∨ error.kind = .trailingInput) :
    let events := (record parser.table 0 input {}).2
    error.position = reached events ∨
      (error.position < reached events ∧ Reentered (reached events) events) := by
  have hsettings := (ofText_eq_ok hparser).2
  have hstart : ∃ rule, parser.table.ruleAt? 0 = some rule := by
    obtain ⟨root, hroot, _⟩ := (Built.ofText hparser).root
    refine ⟨root, ?_⟩
    rw [Table.ruleAt?, ← List.head?_eq_getElem?]
    exact hroot
  have hresult := matchInput_of_parse herror
  rw [hsettings] at hresult
  exact matchInput_position (offers_of_ofText hparser) hstart (by decide) hresult hkind

/-- `root := "a" ("b" "c")? item` and `item := "d"*`: the alternative that is given up got furthest. -/
def abandonedTable : Table :=
  ⟨[⟨"root", .seq [.literal "a", .opt (.seq [.literal "b", .literal "c"]), .ref "item"]⟩,
    ⟨"item", .rep (.literal "d")⟩]⟩

theorem parse_position_abandoned :
    let input := Input.ofString "abx"
    let error := errorAt input .trailingInput 2 ["\"c\""]
    ofText "root := \"a\" (\"b\" \"c\")? item\nitem := \"d\"*" {} = .ok ⟨abandonedTable, {}⟩ ∧
    parse ⟨abandonedTable, {}⟩ input = .error error ∧ error.kind = .trailingInput ∧
    error.position = reached (record abandonedTable 0 input {}).2 := by
  intro input error
  have hparser : ofText "root := \"a\" (\"b\" \"c\")? item\nitem := \"d\"*" {}
      = .ok ⟨abandonedTable, {}⟩ := by
    apply ofText_of_compile
    · decide
    · decide
    · decide
  have herror : parse ⟨abandonedTable, {}⟩ input = .error error := by rfl
  refine ⟨hparser, herror, rfl, ?_⟩
  rcases parse_position hparser herror (.inr rfl) with hsame | ⟨hbefore, _⟩
  · exact hsame
  · exact absurd hbefore (by decide)

/-- `root := "a" y` and `y := y`. -/
def endlessTable : Table :=
  ⟨[⟨"root", .seq [.literal "a", .ref "y"]⟩, ⟨"y", .ref "y"⟩]⟩

/-- **A refused call leaves no trace.** The letter is matched, so `reached = 1`, then `y` calls itself at `1` and is
    refused; `error.position = 0`. -/
theorem parse_position_refused :
    let input := Input.ofString "a"
    ofText "root := \"a\" y\ny := y" {} = .ok ⟨endlessTable, {}⟩ ∧
    parse ⟨endlessTable, {}⟩ input = .error (errorAt input .noMatch 0 []) ∧
    reached (record endlessTable 0 input {}).2 = 1 ∧
    (errorAt input .noMatch 0 []).position ≠ reached (record endlessTable 0 input {}).2 := by
  intro input
  have hparser : ofText "root := \"a\" y\ny := y" {} = .ok ⟨endlessTable, {}⟩ := by
    apply ofText_of_compile
    · decide
    · decide
    · decide
  exact ⟨hparser, by rfl, by rfl, by decide⟩

end PegTree.Parser
