import PegTree.Proofs.Run

/-!
# `Proofs.DepthLimit` — the recursion limit is a clean threshold

The run without limits makes finitely many calls, each at a level. Levels are never skipped: a call at some
level happens inside a call at the level above (`Nested`). So there is one number, the greatest level and
one, that decides for every limit: below it the engine stops at the first call that is too deep, and from it
on the limit is never felt.

A level is the number of active rules, so no level is greater than the number of rules and places. With more
levels than that the engine performs whole runs, so there is one run of each kind (`Runs.unique`).
-/

namespace PegTree.Match

variable {table : Table} {input : Input} {active : List (Nat × Nat)}

/-! ## Levels of calls -/

/-- The least `maxDepth` under which the event is reached. -/
def Event.needs : Event → Nat
  | .called _ _ level => level + 1
  | _ => 0

/-- The maximum of `Event.needs`. -/
def needed : List Event → Nat
  | [] => 0
  | e :: es => max e.needs (needed es)

theorem needs_le_needed {es : List Event} {e : Event} (h : e ∈ es) : e.needs ≤ needed es := by
  induction es with
  | nil => exact absurd h List.not_mem_nil
  | cons first es ih =>
      rcases List.mem_cons.mp h with rfl | h
      · exact Nat.le_max_left _ _
      · exact Nat.le_trans (ih h) (Nat.le_max_right _ _)

theorem exists_needs_of_lt {es : List Event} {limit : Nat} (h : limit < needed es) :
    ∃ e ∈ es, limit < e.needs := by
  induction es with
  | nil => exact absurd h (Nat.not_lt_zero _)
  | cons first es ih =>
      rcases Nat.lt_or_ge limit first.needs with hfirst | hfirst
      · exact ⟨first, List.mem_cons_self, hfirst⟩
      · obtain ⟨e, he, hlt⟩ := ih (by simp only [needed] at h; omega)
        exact ⟨e, List.mem_cons_of_mem _ he, hlt⟩

/-- **Calls nest without gaps**: if `es` has a call at some level, it has one at every level from `active.length`
    on, and levels stay below `table.size * (input.size + 1) + 1`. -/
def Nested (table : Table) (input : Input) (active : List (Nat × Nat)) (es : List Event) : Prop :=
  ∀ e ∈ es, e.needs ≤ table.size * (input.size + 1) + 1 ∧
    ∀ level, active.length ≤ level → level < e.needs → ∃ index pos, .called index pos level ∈ es

theorem Nested.nil : Nested table input active [] :=
  fun _ h => absurd h List.not_mem_nil

theorem Nested.quiet {e : Event} (h : e.needs = 0) : Nested table input active [e] := by
  intro e' he
  rw [List.mem_singleton.mp he, h]
  exact ⟨Nat.zero_le _, fun level _ hlt => absurd hlt (Nat.not_lt_zero _)⟩

theorem Nested.append {es fs : List Event} (hes : Nested table input active es)
    (hfs : Nested table input active fs) : Nested table input active (es ++ fs) := by
  intro e he
  rcases List.mem_append.mp he with he | he
  · refine ⟨(hes e he).1, fun level hle hlt => ?_⟩
    obtain ⟨index, pos, hcalled⟩ := (hes e he).2 level hle hlt
    exact ⟨index, pos, List.mem_append_left _ hcalled⟩
  · refine ⟨(hfs e he).1, fun level hle hlt => ?_⟩
    obtain ⟨index, pos, hcalled⟩ := (hfs e he).2 level hle hlt
    exact ⟨index, pos, List.mem_append_right _ hcalled⟩

/-- `Nested` for a call and the events of its body, one level down. -/
theorem Nested.called {index pos : Nat} {es : List Event} (hfits : Fits table input active)
    (hes : Nested table input ((index, pos) :: active) es) :
    Nested table input active (.called index pos active.length :: es) := by
  have hlength := hfits.length_le
  intro e he
  rcases List.mem_cons.mp he with rfl | he
  · refine ⟨Nat.succ_le_succ hlength, fun level hle hlt => ?_⟩
    obtain rfl : level = active.length := by
      simp only [Event.needs] at hlt
      omega
    exact ⟨index, pos, List.mem_cons_self⟩
  · refine ⟨(hes e he).1, fun level hle hlt => ?_⟩
    rcases Nat.eq_or_lt_of_le hle with rfl | hle
    · exact ⟨index, pos, List.mem_cons_self⟩
    · obtain ⟨index', pos', hcalled⟩ := (hes e he).2 level hle hlt
      exact ⟨index', pos', List.mem_cons_of_mem _ hcalled⟩

/-- **The events of a run are `Nested`.** -/
theorem Runs.nested {goal : Goal} {pos : Nat} {verdict : Verdict} {es : List Event}
    (h : Runs table input active goal pos verdict es) (hpos : pos ≤ input.size)
    (hfits : Fits table input active) : Nested table input active es := by
  induction h with
  | literal _ => exact .quiet rfl
  | literalMissed _ => exact .quiet rfl
  | ref _ _ ih => exact ih hpos hfits
  | refDangling _ => exact .quiet rfl
  | seqNil => exact .nil
  | seqCons hhead _ ih₁ ih₂ => exact (ih₁ hpos hfits).append (ih₂ (hhead.stops hpos).2 hfits)
  | seqFailed _ ih => exact ih hpos hfits
  | choiceNil => exact .nil
  | choiceHead _ ih => exact ih hpos hfits
  | choiceTail _ _ ih₁ ih₂ => exact (ih₁ hpos hfits).append (ih₂ hpos hfits)
  | optSome _ ih => exact ih hpos hfits
  | optNone _ ih => exact ih hpos hfits
  | repFailed _ ih => exact ih hpos hfits
  | repIdle _ ih => exact ih hpos hfits
  | repMore hhead _ _ ih₁ ih₂ => exact (ih₁ hpos hfits).append (ih₂ (hhead.stops hpos).2 hfits)
  | rule hrule hnew _ ih => exact .called hfits (ih hpos (hfits.cons hrule hpos hnew))
  | ruleActive _ _ => exact .called hfits .nil
  | ruleMissing _ => exact .nil

/-! ## The threshold -/

theorem firstCall?_eq_none {level : Nat} {es : List Event} (h : needed es ≤ level) :
    firstCall? level es = none := by
  refine List.findSome?_eq_none_iff.mpr fun e he => ?_
  have hle := Nat.le_trans (needs_le_needed he) h
  cases e with
  | called index pos depth =>
      simp only [Event.needs] at hle
      exact if_neg (by omega)
  | missed _ _ => rfl
  | took _ _ _ => rfl
  | dangling _ _ => rfl

/-- With no rules active, a run has a first call at every level below `needed es`. -/
theorem Runs.exists_firstCall? {goal : Goal} {verdict : Verdict} {es : List Event} {level : Nat}
    (h : Runs table input [] goal 0 verdict es) (hlevel : level < needed es) :
    ∃ pos, firstCall? level es = some pos := by
  obtain ⟨e, he, hlt⟩ := exists_needs_of_lt hlevel
  have hnested := h.nested (Nat.zero_le _) Fits.nil
  obtain ⟨index, pos, hcalled⟩ := (hnested e he).2 level (Nat.zero_le _) hlt
  refine Option.isSome_iff_exists.mp (List.findSome?_isSome_iff.mpr ⟨_, hcalled, ?_⟩)
  simp [Event.callAt?]

theorem Runs.needed_le {goal : Goal} {verdict : Verdict} {es : List Event}
    (h : Runs table input [] goal 0 verdict es) : needed es ≤ table.size * (input.size + 1) + 1 := by
  by_contra hlt
  obtain ⟨e, he, hneeds⟩ := exists_needs_of_lt (Nat.not_le.mp hlt)
  exact absurd (h.nested (Nat.zero_le _) Fits.nil e he).1 (Nat.not_le.mpr hneeds)

/-- From `needed es` on, the engine ends as the run does and notes all of `es`. -/
theorem Runs.attempt_eq {σ : Type} (engine : Engine σ) {goal : Goal} {verdict : Verdict} {es : List Event}
    (h : Runs engine.table engine.input [] goal 0 verdict es) {depth : Nat} (hdepth : needed es ≤ depth)
    (s : σ) : engine.attempt depth [] goal 0 s = (verdict.outcome, es.foldl engine.note s) := by
  rcases h.limited (Nat.zero_le _) depth s with ⟨_, heq⟩ | ⟨deep, _, hcall, _⟩
  · exact heq
  · cases (firstCall?_eq_none hdepth).symm.trans hcall

/-- Below `needed es`, the engine is `.tooDeep` at the first call at `depth`. -/
theorem Runs.attempt_tooDeep {σ : Type} (engine : Engine σ) {goal : Goal} {verdict : Verdict}
    {es : List Event} (h : Runs engine.table engine.input [] goal 0 verdict es) {depth : Nat}
    (hdepth : depth < needed es) (s : σ) :
    ∃ pos s', firstCall? depth es = some pos ∧ engine.attempt depth [] goal 0 s = (.tooDeep pos, s') := by
  obtain ⟨pos, hpos⟩ := h.exists_firstCall? hdepth
  rcases h.limited (Nat.zero_le _) depth s with ⟨hnone, _⟩ | hdeep
  · cases hpos.symm.trans hnone
  · exact hdeep

theorem Verdict.outcome_injective {verdict verdict' : Verdict}
    (h : verdict.outcome = verdict'.outcome) : verdict = verdict' := by
  cases verdict <;> cases verdict' <;> simp_all [Verdict.outcome]

/-- The engine that keeps its events, in order. -/
def recorder (table : Table) (input : Input) : Engine (List Event) :=
  ⟨table, input, fun log e => log ++ [e]⟩

theorem foldl_recorder_note (log es : List Event) :
    es.foldl (recorder table input).note log = log ++ es := by
  induction es generalizing log with
  | nil => exact (List.append_nil log).symm
  | cons e es ih =>
      rw [List.foldl_cons, ih]
      exact List.append_cons log e es ▸ rfl

/-- **The recorder reproduces the run**, from `needed es` on. -/
theorem Runs.recorded {goal : Goal} {verdict : Verdict} {es : List Event}
    (h : Runs table input [] goal 0 verdict es) {depth : Nat} (hdepth : needed es ≤ depth) :
    (recorder table input).attempt depth [] goal 0 [] = (verdict.outcome, es) := by
  have hattempt := h.attempt_eq (recorder table input) hdepth []
  rwa [foldl_recorder_note, List.nil_append] at hattempt

/-- **`Runs` is deterministic**: a recorder with enough levels for two runs reproduces both. -/
theorem Runs.unique {goal : Goal} {verdict verdict' : Verdict} {es es' : List Event}
    (h : Runs table input [] goal 0 verdict es) (h' : Runs table input [] goal 0 verdict' es') :
    verdict' = verdict ∧ es' = es := by
  have hrecord := h.recorded (Nat.le_max_left _ (needed es'))
  have hrecord' := h'.recorded (Nat.le_max_right (needed es) _)
  obtain ⟨houtcome, hes⟩ := Prod.mk.inj (hrecord'.symm.trans hrecord)
  exact ⟨Verdict.outcome_injective houtcome, hes⟩

/-! ## Whole inputs -/

theorem single_injective {σ : Type} {result result' : Outcome MatchTree × σ}
    (h : single result = single result') : result = result' := by
  obtain ⟨outcome, s⟩ := result
  obtain ⟨outcome', s'⟩ := result'
  cases outcome <;> cases outcome' <;> simp_all [single, Outcome.map]

theorem tooDeep_of_limitReached {result : Outcome MatchTree × Furthest}
    (h : LimitReached (conclude input result)) : ∃ deep, result.1 = .tooDeep deep := by
  obtain ⟨error, herror, hkind⟩ := h
  obtain ⟨outcome, furthest⟩ := result
  cases outcome with
  | tooDeep deep => exact ⟨deep, rfl⟩
  | failed =>
      cases herror
      cases hkind
  | matched stop tree =>
      simp only [conclude] at herror
      split at herror
      · cases herror
      · split at herror <;> cases herror <;> cases hkind

theorem Runs.matchInput_of_lt {index : Nat} {verdict : Verdict} {es : List Event}
    (h : Runs table input [] (.rule index) 0 verdict es) {settings : Settings}
    (hlt : settings.maxDepth < needed es) :
    ∃ pos, firstCall? settings.maxDepth es = some pos ∧
      matchInput table index input settings = .error (errorAt input .recursionLimit pos []) := by
  let engine := reportingEngine table input settings
  obtain ⟨pos, furthest, hpos, hattempt⟩ := h.attempt_tooDeep engine hlt {}
  have hrule : engine.rule settings.maxDepth [] index 0 {} = (.tooDeep pos, furthest) :=
    single_injective hattempt
  exact ⟨pos, hpos, by rw [matchInput_eq, hrule]; rfl⟩

theorem Runs.matchInput_of_le {index : Nat} {verdict : Verdict} {es : List Event}
    (h : Runs table input [] (.rule index) 0 verdict es) {settings settings' : Settings}
    (hle : needed es ≤ settings.maxDepth) (hle' : needed es ≤ settings'.maxDepth)
    (hexpected : settings'.maxExpected = settings.maxExpected) :
    matchInput table index input settings' = matchInput table index input settings := by
  let engine := reportingEngine table input settings
  have hattempt := h.attempt_eq engine hle {}
  have hattempt' := h.attempt_eq engine hle' {}
  have hrule : engine.rule settings'.maxDepth [] index 0 {} = engine.rule settings.maxDepth [] index 0 {} :=
    single_injective (hattempt'.trans hattempt.symm)
  have hengine : reportingEngine table input settings' = engine := by
    rw [reportingEngine, hexpected]
    rfl
  rw [matchInput_eq, matchInput_eq, hengine, hrule]

theorem Runs.not_limitReached {index : Nat} {verdict : Verdict} {es : List Event}
    (h : Runs table input [] (.rule index) 0 verdict es) {settings : Settings}
    (hle : needed es ≤ settings.maxDepth) : ¬ LimitReached (matchInput table index input settings) := by
  intro hlimit
  obtain ⟨deep, hdeep⟩ := tooDeep_of_limitReached (matchInput_eq .. ▸ hlimit)
  have hattempt := h.attempt_eq (reportingEngine table input settings) hle {}
  have houtcome := congrArg Prod.fst hattempt
  rw [Engine.attempt, single_fst, hdeep] at houtcome
  cases verdict <;> cases houtcome

/-- **`maxDepth` is a threshold.** There is exactly one run `(verdict, events)` without limits, and a recorder of
    `threshold ≤ table.size * (input.size + 1) + 1` levels or more keeps its events. For `maxDepth < threshold` the
    error has the kind `.recursionLimit`, the position of the first call at level `maxDepth` and no expectations;
    for `threshold ≤ maxDepth` the limit is not reported, and the result is the same for all such `maxDepth`. -/
theorem matchInput_threshold (table : Table) (index : Nat) (input : Input) :
    ∃ threshold verdict events,
      threshold ≤ table.size * (input.size + 1) + 1 ∧
      (∀ verdict' events', Runs table input [] (.rule index) 0 verdict' events' ↔
        verdict' = verdict ∧ events' = events) ∧
      (∀ depth, threshold ≤ depth →
        ((recorder table input).rule depth [] index 0 []).2 = events) ∧
      ∀ settings : Settings,
        (settings.maxDepth < threshold →
          ∃ pos error, firstCall? settings.maxDepth events = some pos ∧
            matchInput table index input settings = .error error ∧ error.kind = .recursionLimit ∧
            error.position = pos ∧ error.expected = [] ∧ error = errorAt input .recursionLimit pos []) ∧
        (threshold ≤ settings.maxDepth →
          ¬ LimitReached (matchInput table index input settings) ∧
          ∀ settings' : Settings, settings'.maxExpected = settings.maxExpected →
            threshold ≤ settings'.maxDepth →
            matchInput table index input settings' = matchInput table index input settings) := by
  obtain ⟨verdict, events, hrun⟩ := exists_runs table input index
  refine ⟨needed events, verdict, events, hrun.needed_le, ?_, ?_, ?_⟩
  · intro verdict' events'
    refine ⟨fun hrun' => hrun.unique hrun', ?_⟩
    rintro ⟨rfl, rfl⟩
    exact hrun
  · intro depth hdepth
    exact congrArg Prod.snd (hrun.recorded hdepth)
  · intro settings
    refine ⟨fun hlt => ?_, fun hle => ⟨hrun.not_limitReached hle, ?_⟩⟩
    · obtain ⟨pos, hpos, herror⟩ := hrun.matchInput_of_lt hlt
      exact ⟨pos, _, hpos, herror, rfl, rfl, rfl, rfl⟩
    · intro settings' hexpected hle'
      exact hrun.matchInput_of_le hle hle' hexpected

example :
    let nest : Table := ⟨[⟨"root", .ref "nest"⟩,
      ⟨"nest", .seq [.literal "(", .opt (.ref "nest"), .literal ")"]⟩]⟩
    let input := Input.ofString "(((())))"
    matchInput nest 0 input { maxDepth := 4 } = .error (errorAt input .recursionLimit 3 []) := by
  rfl

end PegTree.Match
