import PegTree.Proofs.DepthLimit

/-!
# `Proofs.Diagnostics` — what an error says of the literals that were missed

While it matches, the engine keeps one place and one list and changes them with every missed literal: it moves
on and forgets, or adds a description, or does nothing. This module says what has become of them at the end,
without the engine: `misses` are all literals that were missed, in order, and `summary` takes from them the
greatest place and what was missed there.

* **One event** (`note_summary`). Noting an event turns the summary of what has happened into the summary of
  that and the event.
* **One attempt** (`rule_eq_recorded`). Whatever is noted, and however, the engine notes the events that the
  recorder writes down, so the state it ends with is the summary of the record (`foldl_note`).
* **The whole input** (`matchInput_diagnostics`). An error is about the greatest place of a missed literal,
  unless the match got further than that.
-/

namespace PegTree.Match

open Text

/-! ## Missed literals -/

/-- `(pos, literal)` of a `.missed`. -/
def Event.miss? : Event → Option (Nat × String)
  | .missed literal pos => some (pos, literal)
  | _ => none

/-- The misses among `es`, in order. -/
def misses (es : List Event) : List (Nat × String) :=
  es.filterMap Event.miss?

/-- The maximum of the places; `0` if nothing was missed. -/
def furthestOf (missed : List (Nat × String)) : Nat :=
  (missed.map (·.1)).max?.getD 0

/-- The literals missed at `pos`: quoted, without repetitions, in the order of their first miss. -/
def missedAt (pos : Nat) (missed : List (Nat × String)) : List String :=
  ((missed.filter (·.1 = pos)).map fun miss => quoted miss.2).eraseDups

/-- **What `Furthest` should hold**: `furthestOf`, and the first `limit` of `missedAt` there. -/
def summary (limit : Nat) (missed : List (Nat × String)) : Furthest :=
  ⟨furthestOf missed, (missedAt (furthestOf missed) missed).take limit⟩

variable {missed : List (Nat × String)} {pos : Nat} {literal : String}

theorem le_furthestOf {miss : Nat × String} (h : miss ∈ missed) : miss.1 ≤ furthestOf missed := by
  have hplace : miss.1 ∈ missed.map (·.1) := List.mem_map_of_mem h
  exact List.le_max?_getD_of_mem hplace

theorem exists_furthestOf (h : missed ≠ []) : ∃ miss ∈ missed, miss.1 = furthestOf missed := by
  unfold furthestOf
  cases hmax : (missed.map (·.1)).max? with
  | none =>
      rw [List.max?_eq_none_iff, List.map_eq_nil_iff] at hmax
      exact absurd hmax h
  | some place => exact List.mem_map.mp (List.max?_mem hmax)

theorem furthestOf_concat : furthestOf (missed ++ [(pos, literal)]) = max (furthestOf missed) pos := by
  unfold furthestOf
  rw [List.map_append]
  cases missed with
  | nil => exact (Nat.zero_max pos).symm
  | cons miss missed =>
      show (missed.map (·.1) ++ [pos]).foldl max miss.1 = max ((missed.map (·.1)).foldl max miss.1) pos
      rw [List.foldl_append]
      rfl

theorem missedAt_concat_of_ne {place : Nat} (h : pos ≠ place) :
    missedAt place (missed ++ [(pos, literal)]) = missedAt place missed := by
  unfold missedAt
  rw [List.filter_append]
  simp [h]

theorem missedAt_concat : missedAt pos (missed ++ [(pos, literal)])
    = if quoted literal ∈ missedAt pos missed then missedAt pos missed
      else missedAt pos missed ++ [quoted literal] := by
  unfold missedAt
  have hfilter : (missed ++ [(pos, literal)]).filter (·.1 = pos)
      = missed.filter (·.1 = pos) ++ [(pos, literal)] := by
    rw [List.filter_append]
    simp
  rw [hfilter, List.map_append, List.map_singleton, List.eraseDups_append, List.cons_removeAll]
  simp only [List.mem_eraseDups]
  split
  · rename_i hnew
    rw [if_neg (by simpa using hnew)]
    rfl
  · rename_i hlisted
    rw [if_pos (by simpa using hlisted)]
    exact List.append_nil _

theorem missedAt_eq_nil (h : furthestOf missed < pos) : missedAt pos missed = [] := by
  have hfilter : missed.filter (·.1 = pos) = [] := by
    refine List.filter_eq_nil_iff.mpr fun miss hmiss => ?_
    have hle := le_furthestOf hmiss
    simp only [decide_eq_true_eq]
    omega
  unfold missedAt
  rw [hfilter]
  rfl

theorem missedAt_furthestOf_ne_nil (h : missed ≠ []) : missedAt (furthestOf missed) missed ≠ [] := by
  obtain ⟨miss, hmiss, hplace⟩ := exists_furthestOf h
  have hlisted : quoted miss.2 ∈ missedAt (furthestOf missed) missed := by
    unfold missedAt
    rw [List.mem_eraseDups]
    refine List.mem_map_of_mem (List.mem_filter.mpr ⟨hmiss, ?_⟩)
    simpa using hplace
  exact List.ne_nil_of_mem hlisted

/-! ## One event -/

/-- `Furthest.add` on a list cut to `limit` is the cut of the list with the description added. -/
theorem add_take (limit : Nat) (descriptions : List String) (description : String) :
    Furthest.add limit ⟨pos, descriptions.take limit⟩ description
      = ⟨pos, (if description ∈ descriptions then descriptions
          else descriptions ++ [description]).take limit⟩ := by
  unfold Furthest.add
  rcases Nat.lt_or_ge descriptions.length limit with hroom | hfull
  · -- nothing was cut, so the list shows whether the description is new
    rw [List.take_of_length_le (Nat.le_of_lt hroom)]
    by_cases hmem : description ∈ descriptions
    · rw [if_neg (by simp [hmem]), if_pos hmem, List.take_of_length_le (Nat.le_of_lt hroom)]
    · have hfits : (descriptions ++ [description]).length ≤ limit := by
        rw [List.length_append, List.length_singleton]
        exact hroom
      rw [if_pos (by simp [hmem, hroom]), if_neg hmem, List.take_of_length_le hfits]
  · -- the list is full, with or without the description
    have hlength : (descriptions.take limit).length = limit := by
      rw [List.length_take]
      omega
    rw [if_neg (by simp [hlength])]
    split
    · rfl
    · rw [List.take_append_of_le_length hfull]

/-- `.missed` past `position`: the list starts anew. -/
theorem note_further (limit : Nat) {furthest : Furthest} (h : furthest.position < pos) :
    furthest.note limit (.missed literal pos) = Furthest.add limit ⟨pos, []⟩ (quoted literal) := by
  have hadvance : furthest.advance pos = ⟨pos, []⟩ := if_pos h
  simp only [Furthest.note, hadvance, if_true]

/-- `.missed` at `position`: one description more. -/
theorem note_there (limit : Nat) {furthest : Furthest} (h : furthest.position = pos) :
    furthest.note limit (.missed literal pos) = furthest.add limit (quoted literal) := by
  have hadvance : furthest.advance pos = furthest := if_neg (by omega)
  simp only [Furthest.note, hadvance, if_pos h.symm]

/-- `.missed` before `position`: no change. -/
theorem note_before (limit : Nat) {furthest : Furthest} (h : pos < furthest.position) :
    furthest.note limit (.missed literal pos) = furthest := by
  have hadvance : furthest.advance pos = furthest := if_neg (by omega)
  simp only [Furthest.note, hadvance, if_neg (Nat.ne_of_lt h)]

theorem note_missed (limit : Nat) :
    (summary limit missed).note limit (.missed literal pos)
      = summary limit (missed ++ [(pos, literal)]) := by
  have hplace : furthestOf (missed ++ [(pos, literal)]) = max (furthestOf missed) pos := furthestOf_concat
  rcases Nat.lt_trichotomy (furthestOf missed) pos with hlt | heq | hgt
  · have hadd : Furthest.add limit ⟨pos, [].take limit⟩ (quoted literal) = _ :=
      add_take limit [] (quoted literal)
    rw [List.take_nil, if_neg List.not_mem_nil] at hadd
    rw [note_further limit hlt, hadd, summary, hplace, Nat.max_eq_right (Nat.le_of_lt hlt),
      missedAt_concat, missedAt_eq_nil hlt, if_neg List.not_mem_nil]
  · rw [note_there limit heq, summary, add_take, summary, hplace, heq, Nat.max_self, missedAt_concat]
  · rw [note_before limit hgt, summary, summary, hplace, Nat.max_eq_left (Nat.le_of_lt hgt),
      missedAt_concat_of_ne (Nat.ne_of_lt hgt)]

/-- **`Furthest.note` keeps `summary`**: from that of `es` to that of `es ++ [e]`. -/
theorem note_summary (limit : Nat) (es : List Event) (e : Event) :
    (summary limit (misses es)).note limit e = summary limit (misses (es ++ [e])) := by
  unfold misses
  rw [List.filterMap_append]
  cases e with
  | missed literal pos => exact note_missed limit
  | took _ _ _ => exact congrArg (summary limit) (List.append_nil _).symm
  | called _ _ _ => exact congrArg (summary limit) (List.append_nil _).symm
  | dangling _ _ => exact congrArg (summary limit) (List.append_nil _).symm

/-- **`Furthest` after `es` is their `summary`.** Induction on `es` from the right, with `note_summary`. -/
theorem foldl_note (limit : Nat) (es : List Event) :
    es.foldl (Furthest.note limit) {} = summary limit (misses es) := by
  have hstart : ({} : Furthest) = summary limit (misses []) := by
    simp [summary, misses, missedAt, furthestOf]
  have hall : ∀ log : List Event, es.foldl (Furthest.note limit) (summary limit (misses log))
      = summary limit (misses (log ++ es)) := by
    induction es with
    | nil =>
        intro log
        rw [List.append_nil]
        rfl
    | cons e es ih =>
        intro log
        rw [List.foldl_cons, note_summary, ih, List.append_assoc, List.singleton_append]
  rw [hstart, hall, List.nil_append]

/-! ## One attempt -/

variable {table : Table} {input : Input}

/-- **`note` does not influence the match**: the outcome of every engine is that of the `recorder`, and its state is
    `note` folded over the record. -/
theorem rule_eq_recorded {σ : Type} (engine : Engine σ) (depth index : Nat) (s : σ) :
    engine.rule depth [] index 0 s
      = (((recorder engine.table engine.input).rule depth [] index 0 []).1,
        ((recorder engine.table engine.input).rule depth [] index 0 []).2.foldl engine.note s) := by
  obtain ⟨verdict, es, hrun⟩ := exists_runs engine.table engine.input index
  have hengine := hrun.performs (Nat.zero_le _) depth s
  have hrecorder := @Runs.performs _ _ (recorder engine.table engine.input) _ _ _ _ hrun (Nat.zero_le _)
    depth []
  unfold Performs at hengine hrecorder
  rw [attempt_rule] at hengine hrecorder
  rw [foldl_recorder_note, List.nil_append] at hrecorder
  obtain ⟨houtcome, hlog⟩ := Prod.mk.inj hrecorder
  apply single_injective
  rw [hengine, hlog]
  refine Prod.ext ?_ rfl
  exact houtcome.symm

/-- The outcome and the events of the start rule, under `settings.maxDepth`. -/
def record (table : Table) (index : Nat) (input : Input) (settings : Settings) :
    Outcome MatchTree × List Event :=
  (recorder table input).rule settings.maxDepth [] index 0 []

/-- `matchInput` by `conclude`, from the outcome of `record` and the `summary` of its misses. -/
theorem matchInput_eq_conclude (table : Table) (index : Nat) (input : Input) (settings : Settings) :
    matchInput table index input settings
      = conclude input ((record table index input settings).1,
          summary settings.maxExpected (misses (record table index input settings).2)) := by
  rw [matchInput_eq, rule_eq_recorded, ← foldl_note]
  rfl

/-! ## The whole input -/

theorem conclude_noMatch_iff {outcome : Outcome MatchTree} {furthest : Furthest} :
    (∃ error, conclude input (outcome, furthest) = .error error ∧ error.kind = .noMatch)
      ↔ outcome = .failed := by
  constructor
  · rintro ⟨error, herror, hkind⟩
    cases outcome with
    | failed => rfl
    | tooDeep deep =>
        cases herror
        cases hkind
    | matched stop tree =>
        simp only [conclude] at herror
        split at herror
        · cases herror
        · split at herror <;> cases herror <;> cases hkind
  · rintro rfl
    exact ⟨_, rfl, rfl⟩

/-- The test of `conclude` for blaming a miss, where `1 ≤ limit`: some miss is at `stop` or further on. -/
theorem reports_missed_iff {limit stop : Nat} (hlimit : 1 ≤ limit) :
    (stop ≤ (summary limit missed).position && !(summary limit missed).expected.isEmpty) = true
      ↔ ∃ miss ∈ missed, stop ≤ miss.1 := by
  rw [Bool.and_eq_true, decide_eq_true_eq, Bool.not_eq_true', List.isEmpty_eq_false_iff]
  constructor
  · rintro ⟨hle, hexpected⟩
    have hmissed : missed ≠ [] := by
      rintro rfl
      exact hexpected List.take_nil
    obtain ⟨miss, hmiss, hplace⟩ := exists_furthestOf hmissed
    exact ⟨miss, hmiss, hplace ▸ hle⟩
  · rintro ⟨miss, hmiss, hle⟩
    refine ⟨Nat.le_trans hle (le_furthestOf hmiss), ?_⟩
    have hlisted := missedAt_furthestOf_ne_nil (List.ne_nil_of_mem hmiss)
    intro hnone
    rcases List.take_eq_nil_iff.mp hnone with hzero | hnil
    · omega
    · exact hlisted hnil

/-- **Errors are about the furthest misses.** `.noMatch` is reported iff the start rule is `.failed`, at
    `furthestOf missed` with the first `maxExpected` of `missedAt` there. If it matches up to `stop < input.size`,
    the error is `.trailingInput`: with the same position and expectations if some miss is at `stop` or further on,
    and otherwise at `stop`, expecting `"end of input"`. -/
theorem matchInput_diagnostics (table : Table) (index : Nat) (input : Input) (settings : Settings)
    (hlimit : 1 ≤ settings.maxExpected) :
    let result := matchInput table index input settings
    let outcome := (record table index input settings).1
    let missed := misses (record table index input settings).2
    let expected := (missedAt (furthestOf missed) missed).take settings.maxExpected
    ((∃ error, result = .error error ∧ error.kind = .noMatch) ↔ outcome = .failed) ∧
    (outcome = .failed →
      ∃ error, result = .error error ∧ error.kind = .noMatch ∧ error.position = furthestOf missed ∧
        error.expected = expected ∧ error = errorAt input .noMatch (furthestOf missed) expected) ∧
    ∀ stop tree, outcome = .matched stop tree → stop < input.size →
      ((∃ miss ∈ missed, stop ≤ miss.1) →
        ∃ error, result = .error error ∧ error.kind = .trailingInput ∧ error.position = furthestOf missed ∧
          error.expected = expected ∧ error = errorAt input .trailingInput (furthestOf missed) expected) ∧
      ((∀ miss ∈ missed, miss.1 < stop) →
        ∃ error, result = .error error ∧ error.kind = .trailingInput ∧ error.position = stop ∧
          error.expected = ["end of input"] ∧ error = errorAt input .trailingInput stop ["end of input"]) := by
  simp only [matchInput_eq_conclude]
  generalize hrecord : record table index input settings = run
  obtain ⟨outcome, es⟩ := run
  refine ⟨conclude_noMatch_iff, ?_, ?_⟩
  · rintro rfl
    exact ⟨_, rfl, rfl, rfl, rfl, rfl⟩
  · rintro stop tree rfl hstop
    have hne : stop ≠ input.size := Nat.ne_of_lt hstop
    have hreports := @reports_missed_iff (misses es) _ stop hlimit
    simp only [conclude, if_neg hne]
    constructor
    · intro hmissed
      rw [if_pos (hreports.mpr hmissed)]
      exact ⟨_, rfl, rfl, rfl, rfl, rfl⟩
    · intro hbefore
      have hnone : ¬ ∃ miss ∈ misses es, stop ≤ miss.1 := by
        rintro ⟨miss, hmiss, hle⟩
        exact absurd (hbefore miss hmiss) (Nat.not_lt.mpr hle)
      rw [if_neg (mt hreports.mp hnone)]
      exact ⟨_, rfl, rfl, rfl, rfl, rfl⟩

/-- Two rules for `abx`: `list` misses four literals at the last letter, one of them twice; `one` matches one letter
    and has missed a literal before it. -/
def missingTable : Table :=
  ⟨[⟨"list", .seq [.literal "a", .rep (.choice [.literal "b", .literal "c"]), .opt (.literal "b"),
      .opt (.literal "e"), .literal "d"]⟩, ⟨"one", .seq [.opt (.literal "z"), .literal "a"]⟩]⟩

theorem matchInput_diagnostics_missingTable :
    let input := Input.ofString "abx"
    let settings : Settings := { maxExpected := 3 }
    1 ≤ settings.maxExpected ∧
    matchInput missingTable 0 input settings
      = .error (errorAt input .noMatch 2 ["\"b\"", "\"c\"", "\"e\""]) ∧
    matchInput missingTable 1 input settings
      = .error (errorAt input .trailingInput 1 ["end of input"]) := by
  intro input settings
  have hlimit : 1 ≤ settings.maxExpected := by decide
  obtain ⟨_, hlist, -, -, -, rfl⟩ := (matchInput_diagnostics missingTable 0 input settings hlimit).2.1 rfl
  have hone := (matchInput_diagnostics missingTable 1 input settings hlimit).2.2 1 _ rfl (by decide)
  obtain ⟨_, hone, -, -, -, rfl⟩ := hone.2 (by decide)
  -- all that was missed is computed once
  have hmissed : misses (record missingTable 0 input settings).2
      = [(2, "b"), (2, "c"), (2, "b"), (2, "e"), (2, "d")] := rfl
  rw [hmissed] at hlist
  exact ⟨hlimit, hlist, hone⟩

end PegTree.Match
