import Mathlib.Data.List.Perm.Subperm
import Mathlib.Data.List.ProdSigma
import PegTree.Proofs.Derivation

/-!
# `Proofs.Run` — the engine with no limit on its depth

`Runs table input active goal pos verdict events` is what the engine does when no depth is too great and no
repetition is bounded: the rules of the engine, with its guard against left recursion, and with the events in
the order in which they happen. Unlike a derivation a run depends on the rules that are active.

* **There is always a run** (`exists_runs`), for any table and any input: a rule is not entered twice at the
  same place, so no more rules are active than there are rules and places, and a repetition moves on.
* **The engine performs it, up to its limit** (`Runs.performs`): with `depth` levels to go it ends as the run
  does, having noted the events of the run, or it stops at the first call that the run makes at the level
  which is one too many, having noted the events up to that call.
-/

namespace PegTree.Match

/-! ## Runs -/

/-- **Runs of the engine without limits**: with `active` rules, `goal` at `pos` ends with the verdict, after the
    events in the order in which `Engine.note` gets them. -/
inductive Runs (table : Table) (input : Input) :
    (active : List (Nat × Nat)) → Goal → (pos : Nat) → Verdict → List Event → Prop where
  | literal {active value pos stop} : input.matchLiteral? pos value = some stop →
      Runs table input active (.pattern (.literal value)) pos
        (.matched stop [.node ⟨.literal value, ⟨pos, stop⟩⟩ []]) [.took value pos stop]
  | literalMissed {active value pos} : input.matchLiteral? pos value = none →
      Runs table input active (.pattern (.literal value)) pos .failed [.missed value pos]
  | ref {active name index pos verdict es} : table.indexOf? name = some index →
      Runs table input active (.rule index) pos verdict es →
      Runs table input active (.pattern (.ref name)) pos verdict es
  | refDangling {active name pos} : table.indexOf? name = none →
      Runs table input active (.pattern (.ref name)) pos .failed [.dangling name pos]
  | seqNil {active pos} : Runs table input active (.pattern (.seq [])) pos (.matched pos []) []
  | seqCons {active p ps pos mid xs verdict es fs} :
      Runs table input active (.pattern p) pos (.matched mid xs) es →
      Runs table input active (.pattern (.seq ps)) mid verdict fs →
      Runs table input active (.pattern (.seq (p :: ps))) pos (verdict.prepend xs) (es ++ fs)
  | seqFailed {active p ps pos es} : Runs table input active (.pattern p) pos .failed es →
      Runs table input active (.pattern (.seq (p :: ps))) pos .failed es
  | choiceNil {active pos} : Runs table input active (.pattern (.choice [])) pos .failed []
  | choiceHead {active p ps pos stop nodes es} :
      Runs table input active (.pattern p) pos (.matched stop nodes) es →
      Runs table input active (.pattern (.choice (p :: ps))) pos (.matched stop nodes) es
  | choiceTail {active p ps pos verdict es fs} : Runs table input active (.pattern p) pos .failed es →
      Runs table input active (.pattern (.choice ps)) pos verdict fs →
      Runs table input active (.pattern (.choice (p :: ps))) pos verdict (es ++ fs)
  | optSome {active p pos stop nodes es} :
      Runs table input active (.pattern p) pos (.matched stop nodes) es →
      Runs table input active (.pattern (.opt p)) pos (.matched stop nodes) es
  | optNone {active p pos es} : Runs table input active (.pattern p) pos .failed es →
      Runs table input active (.pattern (.opt p)) pos (.matched pos []) es
  -- a repetition has as many rounds as it takes
  | repFailed {active p pos es} : Runs table input active (.pattern p) pos .failed es →
      Runs table input active (.pattern (.rep p)) pos (.matched pos []) es
  | repIdle {active p pos nodes es} :
      Runs table input active (.pattern p) pos (.matched pos nodes) es →
      Runs table input active (.pattern (.rep p)) pos (.matched pos []) es
  | repMore {active p pos mid xs verdict es fs} :
      Runs table input active (.pattern p) pos (.matched mid xs) es → mid ≠ pos →
      Runs table input active (.pattern (.rep p)) mid verdict fs →
      Runs table input active (.pattern (.rep p)) pos (verdict.prepend xs) (es ++ fs)
  -- a call happens at the level of as many rules as are active, and then the guard looks at it
  | rule {active index rule pos verdict es} : table.ruleAt? index = some rule →
      (index, pos) ∉ active →
      Runs table input ((index, pos) :: active) (.pattern rule.pattern) pos verdict es →
      Runs table input active (.rule index) pos (verdict.wrap rule.name pos)
        (.called index pos active.length :: es)
  | ruleActive {active index rule pos} : table.ruleAt? index = some rule → (index, pos) ∈ active →
      Runs table input active (.rule index) pos .failed [.called index pos active.length]
  | ruleMissing {active index pos} : table.ruleAt? index = none →
      Runs table input active (.rule index) pos .failed []

variable {table : Table} {input : Input}

/-- `.matched stop _` has `pos ≤ stop ≤ input.size`. -/
def Verdict.Stops (input : Input) (pos : Nat) : Verdict → Prop
  | .matched stop _ => pos ≤ stop ∧ stop ≤ input.size
  | .failed => True

theorem Verdict.Stops.prepend {pos mid : Nat} {verdict : Verdict} (h : verdict.Stops input mid)
    (hle : pos ≤ mid) (nodes : List MatchTree) : (verdict.prepend nodes).Stops input pos := by
  cases verdict with
  | matched stop more => exact ⟨Nat.le_trans hle h.1, h.2⟩
  | failed => trivial

theorem Verdict.Stops.wrap {pos : Nat} {verdict : Verdict} (h : verdict.Stops input pos) (name : String) :
    (verdict.wrap name pos).Stops input pos := by
  cases verdict with
  | matched stop nodes => exact h
  | failed => trivial

theorem Runs.stops {active : List (Nat × Nat)} {goal : Goal} {pos : Nat} {verdict : Verdict}
    {es : List Event} (h : Runs table input active goal pos verdict es) (hpos : pos ≤ input.size) :
    verdict.Stops input pos := by
  induction h with
  | literal h => exact Input.matchLiteral?_bounds h
  | ref _ _ ih => exact ih hpos
  | seqNil => exact ⟨Nat.le_refl _, hpos⟩
  | seqCons _ _ ih₁ ih₂ => exact (ih₂ (ih₁ hpos).2).prepend (ih₁ hpos).1 _
  | choiceHead _ ih => exact ih hpos
  | choiceTail _ _ _ ih₂ => exact ih₂ hpos
  | optSome _ ih => exact ih hpos
  | optNone _ _ => exact ⟨Nat.le_refl _, hpos⟩
  | repFailed _ _ => exact ⟨Nat.le_refl _, hpos⟩
  | repIdle _ _ => exact ⟨Nat.le_refl _, hpos⟩
  | repMore _ _ _ ih₁ ih₂ => exact (ih₂ (ih₁ hpos).2).prepend (ih₁ hpos).1 _
  | rule _ _ _ ih => exact (ih hpos).wrap _
  | literalMissed | refDangling | seqFailed | choiceNil | ruleActive | ruleMissing => trivial

/-! ## There is always a run -/

/-- **`active` is duplicate-free**, over indices of the table and places of the input. -/
structure Fits (table : Table) (input : Input) (active : List (Nat × Nat)) : Prop where
  nodup : active.Nodup
  inside : ∀ call ∈ active, call.1 < table.size ∧ call.2 ≤ input.size

theorem Fits.nil : Fits table input [] :=
  ⟨List.nodup_nil, fun _ h => absurd h List.not_mem_nil⟩

theorem Fits.cons {active : List (Nat × Nat)} (h : Fits table input active) {index pos : Nat} {rule : Rule}
    (hrule : table.ruleAt? index = some rule) (hpos : pos ≤ input.size) (hnew : (index, pos) ∉ active) :
    Fits table input ((index, pos) :: active) where
  nodup := List.nodup_cons.mpr ⟨hnew, h.nodup⟩
  inside := by
    intro call hcall
    rcases List.mem_cons.mp hcall with rfl | hcall
    · exact ⟨(List.getElem?_eq_some_iff.mp hrule).1, hpos⟩
    · exact h.inside call hcall

/-- At most `table.size * (input.size + 1)` rules are active, by `Fits`. -/
theorem Fits.length_le {active : List (Nat × Nat)} (h : Fits table input active) :
    active.length ≤ table.size * (input.size + 1) := by
  have hsub : active ⊆ List.range table.size ×ˢ List.range (input.size + 1) := by
    intro call hcall
    obtain ⟨hindex, hpos⟩ := h.inside call hcall
    exact List.mem_product.mpr
      ⟨List.mem_range.mpr hindex, List.mem_range.mpr (Nat.lt_succ_of_le hpos)⟩
  calc active.length
      ≤ (List.range table.size ×ˢ List.range (input.size + 1)).length :=
        (h.nodup.subperm hsub).length_le
    _ = table.size * (input.size + 1) := by
        rw [List.length_product, List.length_range, List.length_range]

/-- `goal` has a run from every place of the input. -/
def Settles (table : Table) (input : Input) (active : List (Nat × Nat)) (goal : Goal) : Prop :=
  ∀ pos, pos ≤ input.size → ∃ verdict es, Runs table input active goal pos verdict es

variable {active : List (Nat × Nat)}

theorem settles_seq {ps : List Pattern} (hps : ∀ p ∈ ps, Settles table input active (.pattern p)) :
    Settles table input active (.pattern (.seq ps)) := by
  induction ps with
  | nil => exact fun pos _ => ⟨_, _, .seqNil⟩
  | cons p ps ih =>
      intro pos hpos
      have htail := ih fun q hq => hps q (List.mem_cons_of_mem _ hq)
      obtain ⟨verdict, es, hhead⟩ := hps p List.mem_cons_self pos hpos
      cases verdict with
      | failed => exact ⟨_, _, .seqFailed hhead⟩
      | matched mid xs =>
          obtain ⟨_, _, hrest⟩ := htail mid (hhead.stops hpos).2
          exact ⟨_, _, .seqCons hhead hrest⟩

theorem settles_choice {ps : List Pattern} (hps : ∀ p ∈ ps, Settles table input active (.pattern p)) :
    Settles table input active (.pattern (.choice ps)) := by
  induction ps with
  | nil => exact fun pos _ => ⟨_, _, .choiceNil⟩
  | cons p ps ih =>
      intro pos hpos
      have htail := ih fun q hq => hps q (List.mem_cons_of_mem _ hq)
      obtain ⟨verdict, es, hhead⟩ := hps p List.mem_cons_self pos hpos
      cases verdict with
      | failed =>
          obtain ⟨_, _, hrest⟩ := htail pos hpos
          exact ⟨_, _, .choiceTail hhead hrest⟩
      | matched stop nodes => exact ⟨_, _, .choiceHead hhead⟩

/-- `.rep p` has a run, by induction on `input.size - pos`. -/
theorem settles_rep {p : Pattern} (hp : Settles table input active (.pattern p)) :
    Settles table input active (.pattern (.rep p)) := by
  have hleft : ∀ left pos, pos ≤ input.size → input.size - pos ≤ left →
      ∃ verdict es, Runs table input active (.pattern (.rep p)) pos verdict es := by
    intro left
    induction left with
    | zero =>
        intro pos hpos hleft
        obtain ⟨verdict, es, hround⟩ := hp pos hpos
        cases verdict with
        | failed => exact ⟨_, _, .repFailed hround⟩
        | matched mid xs =>
            -- at the end of the input a round can take nothing
            have hmid : mid = pos := by
              have hstops := hround.stops hpos
              simp only [Verdict.Stops] at hstops
              omega
            exact ⟨_, _, .repIdle (hmid ▸ hround)⟩
    | succ left ih =>
        intro pos hpos hleft
        obtain ⟨verdict, es, hround⟩ := hp pos hpos
        cases verdict with
        | failed => exact ⟨_, _, .repFailed hround⟩
        | matched mid xs =>
            have hstops := hround.stops hpos
            simp only [Verdict.Stops] at hstops
            by_cases hmid : mid = pos
            · exact ⟨_, _, .repIdle (hmid ▸ hround)⟩
            · obtain ⟨_, _, hrest⟩ := ih mid hstops.2 (by omega)
              exact ⟨_, _, .repMore hround hmid hrest⟩
  exact fun pos hpos => hleft _ pos hpos (Nat.le_refl _)

theorem settles_pattern (hcalls : ∀ name, Settles table input active (.pattern (.ref name)))
    (p : Pattern) : Settles table input active (.pattern p) := by
  induction p using Pattern.inductionOn with
  | literal value =>
      intro pos _
      cases hliteral : input.matchLiteral? pos value with
      | some stop => exact ⟨_, _, .literal hliteral⟩
      | none => exact ⟨_, _, .literalMissed hliteral⟩
  | ref name => exact hcalls name
  | seq ps ih => exact settles_seq ih
  | choice ps ih => exact settles_choice ih
  | opt p ih =>
      intro pos hpos
      obtain ⟨verdict, es, hbody⟩ := ih pos hpos
      cases verdict with
      | failed => exact ⟨_, _, .optNone hbody⟩
      | matched stop nodes => exact ⟨_, _, .optSome hbody⟩
  | rep p ih => exact settles_rep ih

/-- **Every rule has a run.** Induction on `room`, the number of rules and places that are not active yet. -/
theorem settles_rule (room : Nat) (hfits : Fits table input active)
    (hroom : table.size * (input.size + 1) ≤ active.length + room) (index : Nat) :
    Settles table input active (.rule index) := by
  induction room generalizing active index with
  | zero =>
      intro pos hpos
      cases hrule : table.ruleAt? index with
      | none => exact ⟨_, _, .ruleMissing hrule⟩
      | some rule =>
          -- every rule is active at every place, this one too
          have hactive : (index, pos) ∈ active := by
            by_contra hnew
            have hlength := (hfits.cons hrule hpos hnew).length_le
            rw [List.length_cons] at hlength
            omega
          exact ⟨_, _, .ruleActive hrule hactive⟩
  | succ room ih =>
      intro pos hpos
      cases hrule : table.ruleAt? index with
      | none => exact ⟨_, _, .ruleMissing hrule⟩
      | some rule =>
          by_cases hactive : (index, pos) ∈ active
          · exact ⟨_, _, .ruleActive hrule hactive⟩
          · have hcalls : ∀ name, Settles table input ((index, pos) :: active) (.pattern (.ref name)) := by
              intro name place hplace
              cases hname : table.indexOf? name with
              | none => exact ⟨_, _, .refDangling hname⟩
              | some next =>
                  have hnext := ih (hfits.cons hrule hpos hactive) (by rw [List.length_cons]; omega) next
                  obtain ⟨_, _, hrun⟩ := hnext place hplace
                  exact ⟨_, _, .ref hname hrun⟩
            obtain ⟨_, _, hbody⟩ := settles_pattern hcalls rule.pattern pos hpos
            exact ⟨_, _, .rule hrule hactive hbody⟩

/-- **`.rule index` has a run at `0`, with no rules active.** -/
theorem exists_runs (table : Table) (input : Input) (index : Nat) :
    ∃ verdict es, Runs table input [] (.rule index) 0 verdict es :=
  settles_rule _ Fits.nil (Nat.le_add_left _ _) index 0 (Nat.zero_le _)

/-! ## The engine performs the run up to its limit -/

/-- The place of a `.called` with `depth = level`. -/
def Event.callAt? (level : Nat) : Event → Option Nat
  | .called _ pos depth => if depth = level then some pos else none
  | _ => none

/-- The place of the first call at `level`. -/
def firstCall? (level : Nat) (es : List Event) : Option Nat :=
  es.findSome? (Event.callAt? level)

theorem firstCall?_append (level : Nat) (es fs : List Event) :
    firstCall? level (es ++ fs) = (firstCall? level es).or (firstCall? level fs) :=
  List.findSome?_append

/-- The events up to the first call at `level`, that call included. -/
def upTo (level : Nat) : List Event → List Event
  | [] => []
  | e :: es => if (e.callAt? level).isSome then [e] else e :: upTo level es

theorem upTo_isPrefix (level : Nat) (es : List Event) : upTo level es <+: es := by
  induction es with
  | nil => exact List.nil_prefix
  | cons e es ih =>
      rw [upTo]
      split
      · exact ⟨es, rfl⟩
      · exact (List.prefix_cons_inj e).mpr ih

theorem upTo_append_of_none {level : Nat} {es : List Event} (h : firstCall? level es = none)
    (fs : List Event) : upTo level (es ++ fs) = es ++ upTo level fs := by
  induction es with
  | nil => rfl
  | cons e es ih =>
      have hall := List.findSome?_eq_none_iff.mp h
      have hrest : firstCall? level es = none :=
        List.findSome?_eq_none_iff.mpr fun x hx => hall x (List.mem_cons_of_mem _ hx)
      rw [List.cons_append, upTo, hall e List.mem_cons_self, ih hrest]
      rfl

theorem upTo_of_none {level : Nat} {es : List Event} (h : firstCall? level es = none) :
    upTo level es = es := by
  have happend := upTo_append_of_none h []
  rwa [List.append_nil, upTo, List.append_nil] at happend

theorem upTo_append_of_some {level deep : Nat} {es : List Event} (h : firstCall? level es = some deep)
    (fs : List Event) : upTo level (es ++ fs) = upTo level es := by
  induction es with
  | nil => cases h
  | cons e es ih =>
      rw [List.cons_append, upTo, upTo]
      cases hfirst : e.callAt? level with
      | some pos => rfl
      | none =>
          rw [firstCall?, List.findSome?_cons, hfirst] at h
          rw [ih h]

variable {σ : Type} {engine : Engine σ}

/-- The outcome under a limit at `level`: `.tooDeep` at the first call there, or that of `verdict` if there is
    none. -/
def cut (level : Nat) (verdict : Verdict) (es : List Event) : Outcome (List MatchTree) :=
  match firstCall? level es with
  | some deep => .tooDeep deep
  | none => verdict.outcome

theorem cut_of_none {level : Nat} {es : List Event} (h : firstCall? level es = none) (verdict : Verdict) :
    cut level verdict es = verdict.outcome := by
  rw [cut, h]

theorem cut_of_some {level deep : Nat} {es : List Event} (h : firstCall? level es = some deep)
    (verdict : Verdict) : cut level verdict es = .tooDeep deep := by
  rw [cut, h]

/-- **`Performs note level verdict es s result`**: `result` is the `cut` outcome, in the state that notes
    `upTo level es`. -/
def Performs (note : σ → Event → σ) (level : Nat) (verdict : Verdict) (es : List Event) (s : σ)
    (result : Outcome (List MatchTree) × σ) : Prop :=
  result = (cut level verdict es, (upTo level es).foldl note s)

/-- `Performs` without the state behind a `.tooDeep`. -/
def Limited (note : σ → Event → σ) (level : Nat) (verdict : Verdict) (es : List Event) (s : σ)
    (result : Outcome (List MatchTree) × σ) : Prop :=
  (firstCall? level es = none ∧ result = (verdict.outcome, es.foldl note s)) ∨
    ∃ deep s', firstCall? level es = some deep ∧ result = (.tooDeep deep, s')

/-- The engine on a goal, with `depth` levels to go. -/
def Engine.attempt (engine : Engine σ) (depth : Nat) (active : List (Nat × Nat)) :
    Goal → Attempt σ (List MatchTree)
  | .pattern p => engine.pattern (engine.call depth active) p
  | .rule index => fun pos s => single (engine.rule depth active index pos s)

section Unfold

variable (depth : Nat) {pos : Nat} (p : Pattern) (ps : List Pattern) (s : σ)

theorem attempt_rule (index : Nat) : engine.attempt depth active (.rule index) pos s
    = single (engine.rule depth active index pos s) :=
  rfl

theorem attempt_seq_cons : engine.attempt depth active (.pattern (.seq (p :: ps))) pos s
    = proceed (fun stop nodes s => after nodes (engine.attempt depth active (.pattern (.seq ps)) stop s))
        (fun s => (.failed, s)) (engine.attempt depth active (.pattern p) pos s) :=
  sequence_cons _ _ _ _ _ _

theorem attempt_choice_cons : engine.attempt depth active (.pattern (.choice (p :: ps))) pos s
    = proceed (fun stop nodes s => (.matched stop nodes, s))
        (engine.attempt depth active (.pattern (.choice ps)) pos)
        (engine.attempt depth active (.pattern p) pos s) :=
  choice_cons _ _ _ _ _ _

theorem attempt_opt : engine.attempt depth active (.pattern (.opt p)) pos s
    = proceed (fun stop nodes s => (.matched stop nodes, s)) (fun s => (.matched pos [], s))
        (engine.attempt depth active (.pattern p) pos s) :=
  pattern_opt _ _ _ _ _

theorem attempt_rep (hpos : pos ≤ engine.input.size) :
    engine.attempt depth active (.pattern (.rep p)) pos s
      = proceed (fun stop nodes s => if stop = pos then (.matched pos [], s)
            else after nodes (engine.attempt depth active (.pattern (.rep p)) stop s))
          (fun s => (.matched pos [], s)) (engine.attempt depth active (.pattern p) pos s) :=
  pattern_rep_eq _ _ _ (calls_produce _ _) hpos

end Unfold

theorem after_outcome (verdict : Verdict) (nodes : List MatchTree) (s : σ) :
    after nodes (verdict.outcome, s) = ((verdict.prepend nodes).outcome, s) := by
  cases verdict <;> rfl

theorem single_wrap_outcome (verdict : Verdict) (name : String) (pos : Nat) (s : σ) :
    single (Match.wrap name pos (verdict.outcome, s)) = ((verdict.wrap name pos).outcome, s) := by
  cases verdict <;> rfl

section Performs

variable {note : σ → Event → σ} {level : Nat} {verdict verdict' : Verdict} {es fs : List Event} {s : σ}
  {result : Outcome (List MatchTree) × σ}

theorem performs_quiet (hcalls : firstCall? level es = none)
    (heq : result = (verdict.outcome, es.foldl note s)) : Performs note level verdict es s result := by
  rw [Performs, cut_of_none hcalls, upTo_of_none hcalls]
  exact heq

/-- **`Performs` is closed under sequencing**: `next` takes the verdict of `es` to `verdict'` with the events `fs`,
    and passes `.tooDeep` on. -/
theorem Performs.goOn {next : Outcome (List MatchTree) × σ → Outcome (List MatchTree) × σ}
    (h : Performs note level verdict es s result)
    (hdeep : ∀ deep s', next (.tooDeep deep, s') = (.tooDeep deep, s'))
    (hnext : Performs note level verdict' fs (es.foldl note s) (next (verdict.outcome, es.foldl note s))) :
    Performs note level verdict' (es ++ fs) s (next result) := by
  unfold Performs at h hnext ⊢
  cases hcall : firstCall? level es with
  | none =>
      have happend : firstCall? level (es ++ fs) = firstCall? level fs := by
        rw [firstCall?_append, hcall, Option.none_or]
      rw [cut_of_none hcall, upTo_of_none hcall] at h
      rw [h, hnext, upTo_append_of_none hcall, List.foldl_append, cut, cut, happend]
  | some deep =>
      have happend : firstCall? level (es ++ fs) = some deep := by
        rw [firstCall?_append, hcall, Option.some_or]
      rw [cut_of_some hcall] at h
      rw [h, hdeep, cut_of_some happend, upTo_append_of_some hcall]

/-- `Performs.goOn` with no further events. -/
theorem Performs.done {next : Outcome (List MatchTree) × σ → Outcome (List MatchTree) × σ}
    (h : Performs note level verdict es s result)
    (hdeep : ∀ deep s', next (.tooDeep deep, s') = (.tooDeep deep, s'))
    (hnext : ∀ s', next (verdict.outcome, s') = (verdict'.outcome, s')) :
    Performs note level verdict' es s (next result) := by
  have hquiet : Performs note level verdict' [] (es.foldl note s) (next (verdict.outcome, es.foldl note s)) :=
    performs_quiet rfl (hnext _)
  have hgoOn := h.goOn hdeep hquiet
  rwa [List.append_nil] at hgoOn

theorem Performs.after (h : Performs note level verdict es s result) (nodes : List MatchTree) :
    Performs note level (verdict.prepend nodes) es s (Match.after nodes result) :=
  h.done (fun _ _ => rfl) (after_outcome verdict nodes)

theorem Performs.wrap (h : Performs note level verdict es s result) (name : String) (pos : Nat) :
    Performs note level (verdict.wrap name pos) es s (single (Match.wrap name pos result)) := by
  change Performs note level (verdict.wrap name pos) es s ((single ∘ Match.wrap name pos) result)
  exact h.done (fun _ _ => rfl) (single_wrap_outcome verdict name pos)

theorem callAt?_called_of_ne {depth : Nat} (hne : depth ≠ level) (index pos : Nat) :
    Event.callAt? level (.called index pos depth) = none :=
  if_neg hne

theorem Performs.called {index pos depth : Nat} (hne : depth ≠ level)
    (h : Performs note level verdict es (note s (.called index pos depth)) result) :
    Performs note level verdict (.called index pos depth :: es) s result := by
  have hquiet := callAt?_called_of_ne hne index pos
  rw [Performs, upTo, cut, firstCall?, List.findSome?_cons, hquiet]
  exact h

theorem Performs.limited (h : Performs note level verdict es s result) :
    Limited note level verdict es s result := by
  cases hcall : firstCall? level es with
  | none => exact Or.inl ⟨hcall, by rw [h, cut_of_none hcall, upTo_of_none hcall]⟩
  | some deep => exact Or.inr ⟨deep, _, hcall, by rw [h, cut_of_some hcall]⟩

end Performs

/-- With no level left a call is `.tooDeep`, and so is the `cut` of any run that starts with it. -/
theorem performs_zero {index pos : Nat} {rule : Rule} {verdict : Verdict} {es : List Event} (s : σ)
    (hrule : engine.table.ruleAt? index = some rule) :
    Performs engine.note (0 + active.length) verdict (.called index pos active.length :: es) s
      (engine.attempt 0 active (.rule index) pos s) := by
  have hcall : Event.callAt? (0 + active.length) (.called index pos active.length) = some pos := by
    rw [Event.callAt?, Nat.zero_add, if_pos rfl]
  rw [Performs, attempt_rule, rule_zero pos s hrule, upTo, cut, firstCall?, List.findSome?_cons, hcall]
  rfl

/-- **The engine `Performs` every run**, with its limit at the level `depth + active.length`. Induction on the
    run. -/
theorem Runs.performs {goal : Goal} {pos : Nat} {verdict : Verdict} {es : List Event}
    (h : Runs engine.table engine.input active goal pos verdict es) (hpos : pos ≤ engine.input.size) :
    ∀ depth s, Performs engine.note (depth + active.length) verdict es s
      (engine.attempt depth active goal pos s) := by
  induction h with
  | literal h =>
      intro depth s
      exact performs_quiet rfl (by simp only [Engine.attempt, Engine.pattern, Engine.literal, h]; rfl)
  | literalMissed h =>
      intro depth s
      exact performs_quiet rfl (by simp only [Engine.attempt, Engine.pattern, Engine.literal, h]; rfl)
  | ref hname _ ih =>
      intro depth s
      have hrule := ih hpos depth s
      simp only [Engine.attempt, Engine.pattern, Engine.call, hname] at hrule ⊢
      exact hrule
  | refDangling hname =>
      intro depth s
      exact performs_quiet rfl (by simp only [Engine.attempt, Engine.pattern, Engine.call, hname]; rfl)
  | seqNil =>
      intro depth s
      exact performs_quiet rfl rfl
  | seqCons hhead _ ih₁ ih₂ =>
      intro depth s
      rw [attempt_seq_cons]
      exact (ih₁ hpos depth s).goOn (fun _ _ => rfl) ((ih₂ (hhead.stops hpos).2 depth _).after _)
  | seqFailed _ ih =>
      intro depth s
      rw [attempt_seq_cons]
      exact (ih hpos depth s).done (fun _ _ => rfl) fun _ => rfl
  | choiceNil =>
      intro depth s
      exact performs_quiet rfl rfl
  | choiceHead _ ih =>
      intro depth s
      rw [attempt_choice_cons]
      exact (ih hpos depth s).done (fun _ _ => rfl) fun _ => rfl
  | choiceTail _ _ ih₁ ih₂ =>
      intro depth s
      rw [attempt_choice_cons]
      exact (ih₁ hpos depth s).goOn (fun _ _ => rfl) (ih₂ hpos depth _)
  | optSome _ ih =>
      intro depth s
      rw [attempt_opt]
      exact (ih hpos depth s).done (fun _ _ => rfl) fun _ => rfl
  | optNone _ ih =>
      intro depth s
      rw [attempt_opt]
      exact (ih hpos depth s).done (fun _ _ => rfl) fun _ => rfl
  | repFailed _ ih =>
      intro depth s
      rw [attempt_rep depth _ s hpos]
      exact (ih hpos depth s).done (fun _ _ => rfl) fun _ => rfl
  | repIdle _ ih =>
      intro depth s
      rw [attempt_rep depth _ s hpos]
      exact (ih hpos depth s).done (fun _ _ => rfl) fun _ => if_pos rfl
  | repMore hhead hmid _ ih₁ ih₂ =>
      intro depth s
      rw [attempt_rep depth _ s hpos]
      refine (ih₁ hpos depth s).goOn (fun _ _ => rfl) ?_
      simp only [Verdict.outcome, proceed, if_neg hmid]
      exact (ih₂ (hhead.stops hpos).2 depth _).after _
  | @rule active index rule pos verdict es hrule hnew _ ih =>
      intro depth s
      cases depth with
      | zero => exact performs_zero s hrule
      | succ depth =>
          have hbody := ih hpos depth (engine.note s (.called index pos active.length))
          rw [List.length_cons, ← Nat.add_assoc, Nat.add_right_comm] at hbody
          rw [attempt_rule, rule_succ hrule hnew]
          exact Performs.called (by omega) (hbody.wrap rule.name pos)
  | @ruleActive active index rule pos hrule hactive =>
      intro depth s
      cases depth with
      | zero => exact performs_zero s hrule
      | succ depth =>
          rw [attempt_rule, rule_active pos s hrule hactive]
          exact Performs.called (by omega) (performs_quiet rfl rfl)
  | @ruleMissing active index pos hrule =>
      intro depth s
      rw [attempt_rule, rule_missing pos s hrule]
      exact performs_quiet rfl rfl

theorem Runs.limited {goal : Goal} {pos : Nat} {verdict : Verdict} {es : List Event}
    (h : Runs engine.table engine.input active goal pos verdict es) (hpos : pos ≤ engine.input.size)
    (depth : Nat) (s : σ) :
    Limited engine.note (depth + active.length) verdict es s (engine.attempt depth active goal pos s) :=
  (h.performs hpos depth s).limited

end PegTree.Match
