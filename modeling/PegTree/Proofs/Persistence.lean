import PegTree.Proofs.Production

/-!
# `Proofs.Persistence` — a matcher that carries on behind the limit

The `Engine` stops for good where a rule is called too deep. A `Walker` keeps the place of that call in `Trail.limit`
and carries on: every later call fails at once, but what is being matched goes on, so that optional parts are left out,
repetitions end and more literals are tried. On its trail it also writes down every place that a pattern or a rule
starts from or arrives at (`cursors`) and the name of every reference that it evaluates (`lookups`).

* `Follows.goOn` — going on from a walk keeps three things: all places lie inside the input, `limit` is never
  replaced, and as long as it is `none` the walk `Concurs` with the engine.
* `pattern_pursues`, `rule_pursues` — whole walks, by induction on the pattern and on the depth.
* `rounds_pattern_eq` — a repetition never runs out of rounds, before the limit and behind it.
* `matchInput_eq_walk` — `matchInput` is `conclude` of the walk, so nothing that is noted behind the limit is reported.
-/

namespace PegTree.Match

/-! ## Walks -/

/-- What a walk carries along: the furthest missed literals, the place of the first call that was too deep, every
    place that was passed on and every name that a reference was evaluated with, the last two in order. -/
structure Trail where
  furthest : Furthest := {}
  limit : Option Nat := none
  cursors : List Nat := []
  lookups : List String := []
  deriving DecidableEq, Repr

/-- Appends `pos` to `trail.cursors`. -/
def Trail.pass (trail : Trail) (pos : Nat) : Trail :=
  { trail with cursors := trail.cursors ++ [pos] }

/-- Appends `name` to `trail.lookups`. -/
def Trail.look (trail : Trail) (name : String) : Trail :=
  { trail with lookups := trail.lookups ++ [name] }

/-- How a walk ends: the stop and the product, if it matches, and the trail. -/
abbrev Walked (α : Type) := Option (Nat × α) × Trail

abbrev Walk (α : Type) := Nat → Trail → Walked α

variable {α β : Type}

/-- The same end with another product, which may depend on the stop. -/
def remake (f : Nat → α → β) : Walked α → Walked β
  | (found, trail) => (found.map fun (stop, product) => (stop, f stop product), trail)

/-- The next walk: `onMatch` after a match, `onFailure` after a failure, with the trail of the first. -/
def goOn (onMatch : Nat → α → Trail → Walked β) (onFailure : Trail → Walked β) : Walked α → Walked β
  | (some (stop, product), trail) => onMatch stop product trail
  | (none, trail) => onFailure trail

/-- The walk with its start and its stop appended to `cursors`. -/
def tracked (walk : Walk α) : Walk α := fun pos trail =>
  goOn (fun stop product trail => (some (stop, product), trail.pass stop)) (fun trail => (none, trail))
    (walk pos (trail.pass pos))

/-- Repeats a walk until it fails or stops where it started, at most `fuel` times. -/
def rounds (walk : Walk (List MatchTree)) : (fuel : Nat) → Walk (List MatchTree)
  | 0, pos, trail => (some (pos, []), trail)
  | fuel + 1, pos, trail =>
    goOn
      (fun stop nodes trail =>
        if stop = pos then (some (pos, []), trail)
        else remake (fun _ more => nodes ++ more) (rounds walk fuel stop trail))
      (fun trail => (some (pos, []), trail)) (walk pos trail)

/-- **A matcher that carries on behind the limit.** -/
structure Walker where
  table : Table
  input : Input
  settings : Settings

namespace Walker

/-- A literal at a place; a miss is noted in `furthest`, behind the limit too. -/
def literal (walker : Walker) (value : String) : Walk MatchTree := fun pos trail =>
  match walker.input.matchLiteral? pos value with
  | some stop => (some (stop, .node ⟨.literal value, ⟨pos, stop⟩⟩ []), trail)
  | none => (none, { trail with furthest := trail.furthest.note walker.settings.maxExpected (.missed value pos) })

mutual
/-- A pattern at a place, when `call` matches the rule of a name. -/
def pattern (walker : Walker) (call : String → Walk MatchTree) : Pattern → Walk (List MatchTree)
  | .literal value => tracked fun pos trail => remake (fun _ tree => [tree]) (walker.literal value pos trail)
  | .ref name => tracked fun pos trail => remake (fun _ tree => [tree]) (call name pos trail)
  | .seq ps => tracked (walker.sequence call ps)
  | .choice ps => tracked (walker.choice call ps)
  | .opt p => tracked fun pos trail =>
    goOn (fun stop nodes trail => (some (stop, nodes), trail)) (fun trail => (some (pos, []), trail))
      (walker.pattern call p pos trail)
  | .rep p => tracked fun pos trail => rounds (walker.pattern call p) (walker.input.size - pos + 1) pos trail
def sequence (walker : Walker) (call : String → Walk MatchTree) : List Pattern → Walk (List MatchTree)
  | [], pos, trail => (some (pos, []), trail)
  | p :: ps, pos, trail =>
    goOn (fun stop nodes trail => remake (fun _ more => nodes ++ more) (walker.sequence call ps stop trail))
      (fun trail => (none, trail)) (walker.pattern call p pos trail)
/-- The first of the patterns that matches; once `limit` is set no other one is tried after a failure. -/
def choice (walker : Walker) (call : String → Walk MatchTree) : List Pattern → Walk (List MatchTree)
  | [], _, trail => (none, trail)
  | p :: ps, pos, trail =>
    goOn (fun stop nodes trail => (some (stop, nodes), trail))
      (fun trail => if trail.limit.isSome then (none, trail) else walker.choice call ps pos trail)
      (walker.pattern call p pos trail)
end

/-- The rule of a name, given how rules are matched. The name is on the trail whether `indexOf?` finds it or not. -/
def call (walker : Walker) (rule : Nat → Walk MatchTree) (name : String) : Walk MatchTree := fun pos trail =>
  match walker.table.indexOf? name with
  | none => (none, trail.look name)
  | some index => rule index pos (trail.look name)

/-- The rule at `index` at a place. Behind the limit it fails, and the first call with no level left sets the
    limit. -/
def rule (walker : Walker) : (depth : Nat) → (active : List (Nat × Nat)) → (index : Nat) → Walk MatchTree
  | 0, _, index => tracked fun pos trail =>
    -- the levels are looked at before the active rules: a rule that would be refused sets the limit as well
    if trail.limit.isSome then (none, trail)
    else
      match walker.table.ruleAt? index with
      | none => (none, trail)
      | some _ => (none, { trail with limit := some pos })
  | depth + 1, active, index => tracked fun pos trail =>
    if trail.limit.isSome then (none, trail)
    else
      match walker.table.ruleAt? index with
      | none => (none, trail)
      | some rule =>
        if active.contains (index, pos) then (none, trail)
        else
          let inner := walker.call (walker.rule depth ((index, pos) :: active))
          remake (fun stop nodes => .node ⟨.rule rule.name, ⟨pos, stop⟩⟩ nodes)
            (walker.pattern inner rule.pattern pos trail)

/-- `rule` at `index` from `0`, with `maxDepth` levels and no active rules. -/
def run (walker : Walker) (index : Nat) : Walked MatchTree :=
  walker.rule walker.settings.maxDepth [] index 0 {}

end Walker

/-! ## Places inside the input -/

/-- All places of the trail are `≤ input.size`. -/
structure Trail.Inside (input : Input) (trail : Trail) : Prop where
  furthest : trail.furthest.position ≤ input.size
  limit : ∀ deep, trail.limit = some deep → deep ≤ input.size
  cursors : ∀ cursor ∈ trail.cursors, cursor ≤ input.size

variable {input : Input} {pos : Nat} {trail : Trail}

theorem Trail.inside_empty : Trail.Inside input {} where
  furthest := Nat.zero_le _
  limit _ h := by cases h
  cursors _ h := absurd h List.not_mem_nil

theorem Trail.Inside.pass (h : trail.Inside input) (hpos : pos ≤ input.size) : (trail.pass pos).Inside input := by
  refine ⟨h.furthest, h.limit, fun cursor hcursor => ?_⟩
  rcases List.mem_append.mp hcursor with hbefore | hlast
  · exact h.cursors cursor hbefore
  · rw [List.mem_singleton.mp hlast]
    exact hpos

theorem Trail.Inside.look (h : trail.Inside input) (name : String) : (trail.look name).Inside input :=
  ⟨h.furthest, h.limit, h.cursors⟩

theorem Furthest.add_position (limit : Nat) (furthest : Furthest) (description : String) :
    (furthest.add limit description).position = furthest.position := by
  unfold Furthest.add
  split
  · rfl
  · rfl

theorem Furthest.note_missed_position_le {furthest : Furthest} (h : furthest.position ≤ input.size)
    (hpos : pos ≤ input.size) (limit : Nat) (value : String) :
    (furthest.note limit (.missed value pos)).position ≤ input.size := by
  have hadvance : (furthest.advance pos).position ≤ input.size := by
    unfold Furthest.advance
    split
    · exact hpos
    · exact h
  simp only [Furthest.note]
  split
  · rw [Furthest.add_position]
    exact hadvance
  · exact hadvance

/-- **How a walk from inside the input ends**: its trail is `Inside`, `pos ≤ stop ≤ input.size` if it matches, and a
    `limit` that was set stays. -/
structure Ends (input : Input) (pos : Nat) (trail : Trail) (walked : Walked α) : Prop where
  inside : walked.2.Inside input
  stop : ∀ stop product, walked.1 = some (stop, product) → pos ≤ stop ∧ stop ≤ input.size
  limit : ∀ deep, trail.limit = some deep → walked.2.limit = some deep

/-- `Ends` of the next walk, which starts at some `mid ≥ pos` on the trail of the first, is `Ends` from `pos`. -/
theorem Ends.trans {mid : Nat} {walked : Walked α} {next : Walked β} (h : Ends input pos trail walked)
    (hmid : pos ≤ mid) (hnext : Ends input mid walked.2 next) : Ends input pos trail next where
  inside := hnext.inside
  stop stop product hfound :=
    have hbounds := hnext.stop stop product hfound
    ⟨Nat.le_trans hmid hbounds.1, hbounds.2⟩
  limit deep hdeep := hnext.limit deep (h.limit deep hdeep)

/-- `Ends` from every place inside the input. -/
def Steady (input : Input) (walk : Walk α) : Prop :=
  ∀ pos trail, pos ≤ input.size → trail.Inside input → Ends input pos trail (walk pos trail)

namespace Steady

variable {walk : Walk (List MatchTree)} {fuel : Nat}

/-- One round, with `rest` for what follows it; the two have to agree only at `mid > pos`. -/
theorem rounds_succ (hwalk : Steady input walk) (hpos : pos ≤ input.size) (htrail : trail.Inside input)
    {rest : Walk (List MatchTree)}
    (hrest : ∀ mid trail, pos < mid → mid ≤ input.size → trail.Inside input →
      rounds walk fuel mid trail = rest mid trail) :
    rounds walk (fuel + 1) pos trail
      = goOn
          (fun stop nodes trail =>
            if stop = pos then (some (pos, []), trail)
            else remake (fun _ more => nodes ++ more) (rest stop trail))
          (fun trail => (some (pos, []), trail)) (walk pos trail) := by
  have hround := hwalk pos trail hpos htrail
  rw [rounds]
  rcases hwalked : walk pos trail with ⟨_ | ⟨mid, nodes⟩, trail'⟩
  · rfl
  · rw [hwalked] at hround
    obtain ⟨hle, hsize⟩ := hround.stop mid nodes rfl
    simp only [goOn]
    by_cases hmid : mid = pos
    · rw [if_pos hmid, if_pos hmid]
    · rw [if_neg hmid, if_neg hmid, hrest mid trail' (by omega) hsize hround.inside]

/-- All `fuel > input.size - pos` give the same rounds, since every round but the last takes a unit. -/
theorem rounds_fuel (hwalk : Steady input walk) {fuel' : Nat} (hpos : pos ≤ input.size)
    (htrail : trail.Inside input) (hfuel : input.size - pos < fuel) (hfuel' : input.size - pos < fuel') :
    rounds walk fuel pos trail = rounds walk fuel' pos trail := by
  induction fuel generalizing fuel' pos trail with
  | zero => exact absurd hfuel (Nat.not_lt_zero _)
  | succ fuel ih =>
      cases fuel' with
      | zero => exact absurd hfuel' (Nat.not_lt_zero _)
      | succ fuel' =>
          refine hwalk.rounds_succ hpos htrail fun mid trail' hmid hsize htrail' => ?_
          exact ih hsize htrail' (by omega) (by omega)

/-- **A repetition, unfolded once**, with no bound on its rounds in sight. -/
theorem rounds_eq (hwalk : Steady input walk) (hpos : pos ≤ input.size) (htrail : trail.Inside input) :
    rounds walk (input.size - pos + 1) pos trail
      = goOn
          (fun stop nodes trail =>
            if stop = pos then (some (pos, []), trail)
            else remake (fun _ more => nodes ++ more) (rounds walk (input.size - stop + 1) stop trail))
          (fun trail => (some (pos, []), trail)) (walk pos trail) := by
  refine hwalk.rounds_succ hpos htrail fun mid trail' hmid hsize htrail' => ?_
  exact hwalk.rounds_fuel hsize htrail' (by omega) (Nat.lt_succ_self _)

end Steady

/-! ## At one with the engine -/

/-- The outcome of a walk: `.tooDeep` if `limit` was set, and otherwise what was found. -/
def outcomeOf (walked : Walked α) : Outcome α :=
  match walked.2.limit, walked.1 with
  | some deep, _ => .tooDeep deep
  | none, some (stop, product) => .matched stop product
  | none, none => .failed

/-- **The walk and the attempt come to the same**: equal outcomes, and equal `furthest` as long as
    `limit = none`. -/
def Concurs (walked : Walked α) (result : Outcome α × Furthest) : Prop :=
  result.1 = outcomeOf walked ∧ (walked.2.limit = none → result.2 = walked.2.furthest)

/-- `Ends`, and `Concurs` if `limit = none` before the walk. -/
structure Follows (input : Input) (pos : Nat) (trail : Trail) (walked : Walked α) (result : Outcome α × Furthest) :
    Prop extends Ends input pos trail walked where
  agrees : trail.limit = none → Concurs walked result

/-- `Follows` from every place inside the input. -/
def Pursues (input : Input) (walk : Walk α) (attempt : Attempt Furthest α) : Prop :=
  ∀ pos trail, pos ≤ input.size → trail.Inside input →
    Follows input pos trail (walk pos trail) (attempt pos trail.furthest)

theorem Pursues.steady {walk : Walk α} {attempt : Attempt Furthest α} (h : Pursues input walk attempt) :
    Steady input walk :=
  fun pos trail hpos htrail => (h pos trail hpos htrail).toEnds

theorem Follows.found {stop : Nat} (htrail : trail.Inside input) (hpos : pos ≤ stop) (hstop : stop ≤ input.size)
    (product : α) : Follows input pos trail (some (stop, product), trail) (.matched stop product, trail.furthest) where
  inside := htrail
  stop _ _ h := by
    cases h
    exact ⟨hpos, hstop⟩
  limit _ h := h
  agrees hlimit := ⟨by rw [outcomeOf, hlimit], fun _ => rfl⟩

/-- A failure at once that notes `furthest`. -/
theorem Follows.missed {furthest : Furthest} (htrail : trail.Inside input)
    (hfurthest : furthest.position ≤ input.size) :
    Follows (α := α) input pos trail (none, { trail with furthest := furthest }) (.failed, furthest) where
  inside := ⟨hfurthest, htrail.limit, htrail.cursors⟩
  stop _ _ h := by cases h
  limit _ h := h
  agrees hlimit := ⟨by rw [outcomeOf, hlimit], fun _ => rfl⟩

theorem Follows.lost (htrail : trail.Inside input) :
    Follows (α := α) input pos trail (none, trail) (.failed, trail.furthest) :=
  .missed htrail htrail.furthest

/-- The call that sets `limit`. -/
theorem Follows.tooDeep (htrail : trail.Inside input) (hpos : pos ≤ input.size) (hlimit : ¬ trail.limit.isSome = true)
    (furthest : Furthest) :
    Follows (α := α) input pos trail (none, { trail with limit := some pos }) (.tooDeep pos, furthest) where
  inside := ⟨htrail.furthest, fun _ h => by cases h; exact hpos, htrail.cursors⟩
  stop _ _ h := by cases h
  limit _ h := by simp [h] at hlimit
  agrees _ := ⟨rfl, fun h => by cases h⟩

/-- A failure behind the limit; `Follows` asks nothing of `result` there. -/
theorem Follows.behind (htrail : trail.Inside input) (hlimit : trail.limit.isSome = true)
    (result : Outcome α × Furthest) : Follows input pos trail (none, trail) result where
  inside := htrail
  stop _ _ h := by cases h
  limit _ h := h
  agrees hnone := by simp [hnone] at hlimit

section GoOn

variable {walked : Walked α} {result : Outcome α × Furthest} {onMatch : Nat → α → Trail → Walked β}
  {onFailure : Trail → Walked β} {onMatch' : Nat → α → Furthest → Outcome β × Furthest}
  {onFailure' : Furthest → Outcome β × Furthest}

/-- `Concurs` after `goOn`: if `limit` is set the attempt has ended with `.tooDeep`, and all the next walk has to do
    is to keep `limit`. -/
theorem Concurs.goOn (h : Concurs walked result)
    (hlimit : ∀ deep, walked.2.limit = some deep → (goOn onMatch onFailure walked).2.limit = some deep)
    (hnext : walked.2.limit = none →
      Concurs (goOn onMatch onFailure walked)
        (proceed onMatch' onFailure' (outcomeOf walked, walked.2.furthest))) :
    Concurs (goOn onMatch onFailure walked) (proceed onMatch' onFailure' result) := by
  obtain ⟨houtcome, hfurthest⟩ := h
  cases hdeep : walked.2.limit with
  | none =>
      have hresult : result = (outcomeOf walked, walked.2.furthest) := Prod.ext houtcome (hfurthest hdeep)
      rw [hresult]
      exact hnext hdeep
  | some deep =>
      -- the attempt has ended, and the next walk leaves the limit where it is
      have hstays := hlimit deep hdeep
      have hresult : result = (.tooDeep deep, result.2) := by
        refine Prod.ext ?_ rfl
        rw [houtcome, outcomeOf, hdeep]
      rw [hresult]
      refine ⟨?_, fun hnone => ?_⟩
      · rw [outcomeOf, hstays]
        rfl
      · cases hnone.symm.trans hstays

/-- **Going on keeps `Follows`.** The next walk starts at the stop of the first, or at `pos` if that one failed. -/
theorem Follows.goOn (h : Follows input pos trail walked result)
    (hmatch : ∀ stop product trail, pos ≤ stop → stop ≤ input.size → trail.Inside input →
      Follows input stop trail (onMatch stop product trail) (onMatch' stop product trail.furthest))
    (hfailure : ∀ trail, trail.Inside input →
      Follows input pos trail (onFailure trail) (onFailure' trail.furthest)) :
    Follows input pos trail (goOn onMatch onFailure walked) (proceed onMatch' onFailure' result) := by
  -- what follows, as if the limit were not on the trail
  have hnext : ∃ mid, pos ≤ mid ∧ Follows input mid walked.2 (Match.goOn onMatch onFailure walked)
      (proceed onMatch' onFailure' (outcomeOf (walked.1, {}), walked.2.furthest)) := by
    obtain ⟨_ | ⟨mid, product⟩, trail'⟩ := walked
    · exact ⟨pos, Nat.le_refl _, hfailure trail' h.inside⟩
    · obtain ⟨hle, hsize⟩ := h.stop mid product rfl
      exact ⟨mid, hle, hmatch mid product trail' hle hsize h.inside⟩
  obtain ⟨mid, hmid, hnext⟩ := hnext
  refine ⟨h.toEnds.trans hmid hnext.toEnds, fun hnone => ?_⟩
  refine (h.agrees hnone).goOn hnext.limit fun hlimit => ?_
  have houtcome : outcomeOf walked = outcomeOf (walked.1, {}) := by
    rw [outcomeOf, hlimit]
    rfl
  rw [houtcome]
  exact hnext.agrees hlimit

end GoOn

theorem Follows.remake {walked : Walked α} {result : Outcome α × Furthest}
    (h : Follows input pos trail walked result) (f : Nat → α → β) :
    Follows input pos trail (remake f walked) (result.1.map f, result.2) := by
  have hgoOn : Match.remake f walked
      = Match.goOn (fun stop product trail => (some (stop, f stop product), trail)) (fun trail => (none, trail))
        walked := by
    obtain ⟨_ | ⟨stop, product⟩, trail'⟩ := walked
    · rfl
    · rfl
  have hproceed : (result.1.map f, result.2) = proceed (fun stop product s => (.matched stop (f stop product), s))
      (fun s => (.failed, s)) result := by
    obtain ⟨_ | _ | _, s⟩ := result
    · rfl
    · rfl
    · rfl
  rw [hgoOn, hproceed]
  exact h.goOn (fun stop product _ _ hstop htrail => .found htrail (Nat.le_refl _) hstop _) fun _ htrail =>
    .lost htrail

/-- `Follows` looks at `trail.limit` only, and `pass` leaves it. -/
theorem Follows.of_pass {place : Nat} {walked : Walked α} {result : Outcome α × Furthest}
    (h : Follows input pos (trail.pass place) walked result) : Follows input pos trail walked result :=
  ⟨⟨h.inside, h.stop, h.limit⟩, h.agrees⟩

theorem Follows.of_look {name : String} {walked : Walked α} {result : Outcome α × Furthest}
    (h : Follows input pos (trail.look name) walked result) : Follows input pos trail walked result :=
  ⟨⟨h.inside, h.stop, h.limit⟩, h.agrees⟩

theorem Pursues.tracked {walk : Walk α} {attempt : Attempt Furthest α} (h : Pursues input walk attempt) :
    Pursues input (tracked walk) attempt := by
  intro pos trail hpos htrail
  have hproceed : attempt pos trail.furthest = proceed (fun stop product s => (.matched stop product, s))
      (fun s => (.failed, s)) (attempt pos trail.furthest) := by
    rcases attempt pos trail.furthest with ⟨_ | _ | _, s⟩
    · rfl
    · rfl
    · rfl
  have hwalk : Follows input pos trail (walk pos (trail.pass pos)) (attempt pos trail.furthest) :=
    (h pos (trail.pass pos) hpos (htrail.pass hpos)).of_pass
  rw [hproceed]
  refine hwalk.goOn (fun stop product trail' _ hstop htrail' => ?_) fun _ htrail' => .lost htrail'
  exact (Follows.found (htrail'.pass hstop) (Nat.le_refl _) hstop product).of_pass

/-! ## Patterns and rules -/

/-- The engine that the walker follows, with `Furthest` for its state. -/
def Walker.engine (walker : Walker) : Engine Furthest :=
  reportingEngine walker.table walker.input walker.settings

namespace Walker

variable {walker : Walker} {call : String → Walk MatchTree} {call' : String → Attempt Furthest MatchTree}

theorem literal_pursues (value : String) :
    Pursues walker.input (walker.literal value) (walker.engine.literal value) := by
  intro pos trail hpos htrail
  have hinput : walker.engine.input = walker.input := rfl
  cases hmatch : walker.input.matchLiteral? pos value with
  | some stop =>
      obtain ⟨hle, hsize⟩ := Input.matchLiteral?_bounds hmatch
      simp only [literal, Engine.literal, hinput, hmatch]
      exact .found htrail hle hsize _
  | none =>
      simp only [literal, Engine.literal, hinput, hmatch]
      have hfurthest := Furthest.note_missed_position_le htrail.furthest hpos walker.settings.maxExpected value
      exact .missed htrail hfurthest

theorem sequence_pursues {ps : List Pattern}
    (hps : ∀ p ∈ ps, Pursues walker.input (walker.pattern call p) (walker.engine.pattern call' p)) :
    Pursues walker.input (walker.sequence call ps) (walker.engine.sequence call' ps) := by
  induction ps with
  | nil =>
      intro pos trail hpos htrail
      exact .found htrail (Nat.le_refl _) hpos _
  | cons p ps ih =>
      intro pos trail hpos htrail
      obtain ⟨hp, hmore⟩ := List.forall_mem_cons.mp hps
      rw [sequence_cons, sequence]
      refine (hp pos trail hpos htrail).goOn (fun stop nodes trail' _ hstop htrail' => ?_) fun _ htrail' =>
        .lost htrail'
      exact (ih hmore stop trail' hstop htrail').remake fun _ more => nodes ++ more

theorem choice_pursues {ps : List Pattern}
    (hps : ∀ p ∈ ps, Pursues walker.input (walker.pattern call p) (walker.engine.pattern call' p)) :
    Pursues walker.input (walker.choice call ps) (walker.engine.choice call' ps) := by
  -- a failure behind the limit ends the choice, where the attempt ended before
  induction ps with
  | nil =>
      intro pos trail hpos htrail
      exact .lost htrail
  | cons p ps ih =>
      intro pos trail hpos htrail
      obtain ⟨hp, hmore⟩ := List.forall_mem_cons.mp hps
      rw [choice_cons, choice]
      refine (hp pos trail hpos htrail).goOn
        (fun stop nodes trail' _ hstop htrail' => .found htrail' (Nat.le_refl _) hstop nodes) fun trail' htrail' => ?_
      split
      · next hlimit => exact .behind htrail' hlimit _
      · exact ih hmore pos trail' hpos htrail'

theorem rounds_pursues {walk : Walk (List MatchTree)} {attempt : Attempt Furthest (List MatchTree)}
    (h : Pursues input walk attempt) (fuel : Nat) : Pursues input (rounds walk fuel) (greedy attempt fuel) := by
  -- both sides have as many rounds left, so whether these are enough plays no part
  induction fuel with
  | zero =>
      intro pos trail hpos htrail
      exact .found htrail (Nat.le_refl _) hpos _
  | succ fuel ih =>
      intro pos trail hpos htrail
      rw [greedy_succ, rounds]
      refine (h pos trail hpos htrail).goOn (fun stop nodes trail' hle hstop htrail' => ?_) fun _ htrail' =>
        .found htrail' (Nat.le_refl _) hpos _
      split
      · next hidle => exact .found htrail' (Nat.le_of_eq hidle) hpos _
      · exact (ih stop trail' hstop htrail').remake fun _ more => nodes ++ more

/-- **The walk of a pattern follows the engine**, if `call` follows `call'`. -/
theorem pattern_pursues (hcall : ∀ name, Pursues walker.input (call name) (call' name)) (p : Pattern) :
    Pursues walker.input (walker.pattern call p) (walker.engine.pattern call' p) := by
  induction p using Pattern.inductionOn with
  | literal value =>
      rw [pattern]
      refine Pursues.tracked fun pos trail hpos htrail => ?_
      exact (literal_pursues value pos trail hpos htrail).remake fun _ tree => [tree]
  | ref name =>
      rw [pattern]
      refine Pursues.tracked fun pos trail hpos htrail => ?_
      exact (hcall name pos trail hpos htrail).remake fun _ tree => [tree]
  | seq ps ih =>
      rw [pattern]
      exact (sequence_pursues ih).tracked
  | choice ps ih =>
      rw [pattern]
      exact (choice_pursues ih).tracked
  | opt p ih =>
      rw [pattern]
      refine Pursues.tracked fun pos trail hpos htrail => ?_
      rw [pattern_opt]
      exact (ih pos trail hpos htrail).goOn
        (fun _ nodes _ _ hstop htrail' => .found htrail' (Nat.le_refl _) hstop nodes)
        fun _ htrail' => .found htrail' (Nat.le_refl _) hpos _
  | rep p ih =>
      rw [pattern]
      refine Pursues.tracked fun pos trail hpos htrail => ?_
      exact rounds_pursues ih _ pos trail hpos htrail

theorem call_pursues {depth : Nat} {active : List (Nat × Nat)}
    (hrule : ∀ index, Pursues walker.input (walker.rule depth active index)
      (walker.engine.rule depth active index)) (name : String) :
    Pursues walker.input (walker.call (walker.rule depth active) name) (walker.engine.call depth active name) := by
  intro pos trail hpos htrail
  have htable : walker.engine.table = walker.table := rfl
  cases hname : walker.table.indexOf? name with
  | none =>
      simp only [Walker.call, Engine.call, htable, hname]
      exact (Follows.lost (htrail.look name)).of_look
  | some index =>
      simp only [Walker.call, Engine.call, htable, hname]
      exact (hrule index pos (trail.look name) hpos (htrail.look name)).of_look

/-- **The walk of a rule follows the engine**, at every depth and below all active rules. -/
theorem rule_pursues (depth : Nat) (active : List (Nat × Nat)) (index : Nat) :
    Pursues walker.input (walker.rule depth active index) (walker.engine.rule depth active index) := by
  induction depth generalizing active index with
  | zero =>
      rw [rule]
      refine Pursues.tracked fun pos trail hpos htrail => ?_
      split
      · next hlimit => exact .behind htrail hlimit _
      · next hlimit =>
          split
          · next hrule =>
              rw [rule_missing pos _ hrule]
              exact .lost htrail
          · next hrule =>
              rw [rule_zero pos _ hrule]
              exact .tooDeep htrail hpos hlimit _
  | succ depth ih =>
      rw [rule]
      refine Pursues.tracked fun pos trail hpos htrail => ?_
      split
      · next hlimit => exact .behind htrail hlimit _
      · split
        · next hrule =>
            rw [rule_missing pos _ hrule]
            exact .lost htrail
        · next rule hrule =>
            split
            · next hactive =>
                rw [rule_active pos _ hrule (List.contains_iff_mem.mp hactive)]
                exact .lost htrail
            · next hactive =>
                rw [rule_succ hrule (mt List.contains_iff_mem.mpr hactive)]
                have hcall := call_pursues (ih ((index, pos) :: active))
                exact (pattern_pursues hcall rule.pattern pos trail hpos htrail).remake _

/-- `rounds_eq` for the rounds of `Walker.pattern`: a repetition makes as many rounds as it can, before the limit
    and behind it. -/
theorem rounds_pattern_eq (walker : Walker) (depth : Nat) (active : List (Nat × Nat)) (p : Pattern)
    (hpos : pos ≤ walker.input.size) (htrail : trail.Inside walker.input) :
    let round := walker.pattern (walker.call (walker.rule depth active)) p
    rounds round (walker.input.size - pos + 1) pos trail
      = goOn
          (fun stop nodes trail =>
            if stop = pos then (some (pos, []), trail)
            else remake (fun _ more => nodes ++ more) (rounds round (walker.input.size - stop + 1) stop trail))
          (fun trail => (some (pos, []), trail)) (round pos trail) :=
  (pattern_pursues (call_pursues (rule_pursues depth active)) p).steady.rounds_eq hpos htrail

end Walker

/-! ## Whole inputs -/

theorem Walker.run_follows (walker : Walker) (index : Nat) :
    Follows walker.input 0 {} (walker.run index)
      (walker.engine.rule walker.settings.maxDepth [] index 0 {}) :=
  rule_pursues _ [] index 0 {} (Nat.zero_le _) Trail.inside_empty

/-- `conclude` depends on a result only up to `Concurs`: what was noted behind the limit is not reported. -/
theorem Concurs.conclude_eq {walked : Walked MatchTree} {result : Outcome MatchTree × Furthest}
    (h : Concurs walked result) : conclude input result = conclude input (outcomeOf walked, walked.2.furthest) := by
  obtain ⟨outcome, furthest⟩ := result
  obtain ⟨rfl, hfurthest⟩ := h
  cases hlimit : walked.2.limit with
  | none => rw [← hfurthest hlimit]
  | some deep =>
      have hdeep : outcomeOf walked = .tooDeep deep := by
        rw [outcomeOf, hlimit]
      rw [hdeep]
      rfl

/-- **Carrying on comes to the same**: `matchInput` is `conclude` of the outcome and the furthest misses of
    `Walker.run`. -/
theorem matchInput_eq_walk (table : Table) (index : Nat) (input : Input) (settings : Settings) :
    matchInput table index input settings
      = conclude input (outcomeOf (Walker.run ⟨table, input, settings⟩ index),
          (Walker.run ⟨table, input, settings⟩ index).2.furthest) :=
  ((Walker.run_follows ⟨table, input, settings⟩ index).agrees rfl).conclude_eq

end PegTree.Match
