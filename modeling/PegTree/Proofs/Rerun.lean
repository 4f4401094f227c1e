import PegTree.Proofs.Production

/-!
# `Proofs.Rerun` — trying the same thing again at the same place adds nothing

The engine never looks at what it notes, so a second attempt at the same place takes the same way. It meets
the same literals, and those that it misses have been missed before: the furthest place can only have moved
on, and the list of expectations can only have grown.

* `Later` — a state that is reached by noting more;
* `Absorbing` — what has been noted stays noted, whatever comes after it (`Furthest.absorbing`);
* `Repeatable` — an attempt that, made again in any later state, ends in the same way and leaves that state
  as it is. It passes from one step to two (`Repeatable.bind`), and so on to patterns
  (`pattern_repeatable`) and to rules, whatever the guard and the depth do (`rule_repeatable`).
-/

namespace PegTree.Match

variable {σ α β : Type} {note : σ → Event → σ}

/-! ## Later states -/

/-- `s'` is `s` after noting some more events. -/
def Later (note : σ → Event → σ) (s s' : σ) : Prop :=
  ∃ es : List Event, s' = es.foldl note s

theorem Later.refl (s : σ) : Later note s s :=
  ⟨[], rfl⟩

theorem Later.trans {s t u : σ} (hst : Later note s t) (htu : Later note t u) : Later note s u := by
  obtain ⟨es, rfl⟩ := hst
  obtain ⟨fs, rfl⟩ := htu
  exact ⟨es ++ fs, List.foldl_append.symm⟩

theorem Later.step (s : σ) (e : Event) : Later note s (note s e) :=
  ⟨[e], rfl⟩

/-- A property that `note` keeps passes from `s` to every `Later` state. -/
theorem Later.preserves {P : σ → Prop} (hnote : ∀ s e, P s → P (note s e)) {s s' : σ}
    (h : Later note s s') (hs : P s) : P s' := by
  obtain ⟨es, rfl⟩ := h
  induction es generalizing s with
  | nil => exact hs
  | cons e es ih => exact ih (hnote s e hs)

/-- **`note` is absorbing**: `note s' e = s'` in every state `s'` later than `note s e`. -/
def Absorbing (note : σ → Event → σ) : Prop :=
  ∀ s e s', Later note (note s e) s' → note s' e = s'

/-! ## The furthest place absorbs -/

namespace Furthest

/-- A miss of `literal` at `pos` would change nothing: `position` is further on, or it is `pos` and the literal is
    listed or the list is full. -/
def Knows (limit : Nat) (literal : String) (pos : Nat) (furthest : Furthest) : Prop :=
  pos < furthest.position ∨ (pos = furthest.position ∧
    (Text.quoted literal ∈ furthest.expected ∨ limit ≤ furthest.expected.length))

variable {limit : Nat} {literal : String} {pos : Nat}

theorem Knows.note_eq {furthest : Furthest} (h : Knows limit literal pos furthest) :
    furthest.note limit (.missed literal pos) = furthest := by
  have hadvance : furthest.advance pos = furthest := by
    rw [advance, if_neg]
    rcases h with hlt | ⟨heq, _⟩ <;> omega
  simp only [note, hadvance]
  rcases h with hlt | ⟨heq, hlisted⟩
  · rw [if_neg (Nat.ne_of_lt hlt)]
  · rw [if_pos heq, add, if_neg]
    rcases hlisted with hmem | hfull
    · simp [hmem]
    · simp [Nat.not_lt.mpr hfull]

/-- `Furthest.add` keeps the list and does not shorten it. -/
theorem Knows.add {furthest : Furthest} (h : Knows limit literal pos furthest) (description : String) :
    Knows limit literal pos (furthest.add limit description) := by
  rw [Furthest.add]
  split
  · rcases h with hlt | ⟨heq, hmem | hfull⟩
    · exact Or.inl hlt
    · exact Or.inr ⟨heq, Or.inl (List.mem_append_left _ hmem)⟩
    · refine Or.inr ⟨heq, Or.inr ?_⟩
      rw [List.length_append]
      omega
  · exact h

/-- `Furthest.advance` never moves back. -/
theorem Knows.advance {furthest : Furthest} (h : Knows limit literal pos furthest) (place : Nat) :
    Knows limit literal pos (furthest.advance place) := by
  rw [Furthest.advance]
  split
  · rename_i hlt
    refine Or.inl (Nat.lt_of_le_of_lt ?_ hlt)
    rcases h with hlt' | ⟨heq, _⟩ <;> omega
  · exact h

theorem Knows.kept {furthest : Furthest} (h : Knows limit literal pos furthest) (e : Event) :
    Knows limit literal pos (furthest.note limit e) := by
  cases e with
  | missed other place =>
      simp only [Furthest.note]
      split
      · exact (h.advance place).add _
      · exact h.advance place
  | took _ _ _ => exact h
  | called _ _ _ => exact h
  | dangling _ _ => exact h

theorem knows_note (furthest : Furthest) :
    Knows limit literal pos (furthest.note limit (.missed literal pos)) := by
  have hle : pos ≤ (furthest.advance pos).position := by
    rw [Furthest.advance]
    split
    · exact Nat.le_refl _
    · omega
  simp only [Furthest.note]
  split
  · rename_i heq
    rw [Furthest.add]
    split
    · exact Or.inr ⟨heq, Or.inl (List.mem_append_right _ (List.mem_singleton.mpr rfl))⟩
    · rename_i hlisted
      refine Or.inr ⟨heq, ?_⟩
      simp only [Bool.and_eq_true, decide_eq_true_eq, Bool.not_eq_true', List.contains_eq_mem,
        decide_eq_false_iff_not] at hlisted
      by_cases hmem : Text.quoted literal ∈ (furthest.advance pos).expected
      · exact Or.inl hmem
      · exact Or.inr (Nat.not_lt.mp fun hlt => hlisted ⟨hlt, hmem⟩)
  · rename_i hne
    exact Or.inl (Nat.lt_of_le_of_ne hle hne)

/-- **`Furthest.note limit` is `Absorbing`.** -/
theorem absorbing (limit : Nat) : Absorbing (Furthest.note limit) := by
  intro furthest e later hlater
  cases e with
  | missed literal pos =>
      have hknows : Knows limit literal pos later :=
        hlater.preserves (fun _ e h => h.kept e) (knows_note furthest)
      exact hknows.note_eq
  | took _ _ _ => rfl
  | called _ _ _ => rfl
  | dangling _ _ => rfl

end Furthest

/-! ## Attempts that can be repeated -/

/-- **`Repeatable note run`**: `run` only notes, and in every state later than its end it returns the same answer
    and leaves the state as it is. -/
def Repeatable (note : σ → Event → σ) (run : σ → α × σ) : Prop :=
  ∀ s, Later note s (run s).2 ∧ ∀ s', Later note (run s).2 s' → run s' = ((run s).1, s')

theorem Repeatable.of_eq {run run' : σ → α × σ} (heq : ∀ s, run s = run' s) (h : Repeatable note run') :
    Repeatable note run :=
  funext heq ▸ h

theorem repeatable_const (a : α) : Repeatable note fun s => (a, s) :=
  fun s => ⟨.refl s, fun _ _ => rfl⟩

theorem repeatable_note (hnote : Absorbing note) (a : α) (e : Event) :
    Repeatable note fun s => (a, note s e) :=
  fun s => ⟨.step s e, fun s' hlater => Prod.ext rfl (hnote s e s' hlater)⟩

/-- **`Repeatable` is closed under composition.** `next` may depend on the first answer, which is the same in both
    runs. -/
theorem Repeatable.bind {run : σ → α × σ} {next : α → σ → β × σ} (hrun : Repeatable note run)
    (hnext : ∀ a, Repeatable note (next a)) : Repeatable note fun s => next (run s).1 (run s).2 := by
  intro s
  obtain ⟨hlater, hagain⟩ := hrun s
  obtain ⟨hlater', hagain'⟩ := hnext (run s).1 (run s).2
  refine ⟨hlater.trans hlater', fun s' hs' => ?_⟩
  have hfirst : run s' = ((run s).1, s') := hagain s' (hlater'.trans hs')
  simp only [hfirst]
  exact hagain' s' hs'

theorem Repeatable.map {run : σ → α × σ} (hrun : Repeatable note run) (f : α → β) :
    Repeatable note fun s => (f (run s).1, (run s).2) :=
  hrun.bind fun a => repeatable_const (f a)

theorem Repeatable.proceed {run : σ → Outcome α × σ} {onMatch : Nat → α → σ → Outcome β × σ}
    {onFailure : σ → Outcome β × σ} (hrun : Repeatable note run)
    (hmatch : ∀ stop product, Repeatable note (onMatch stop product))
    (hfailure : Repeatable note onFailure) :
    Repeatable note fun s => Match.proceed onMatch onFailure (run s) := by
  have hnext : ∀ outcome, Repeatable note fun s => Match.proceed onMatch onFailure (outcome, s) := by
    intro outcome
    cases outcome with
    | matched stop product => exact hmatch stop product
    | failed => exact hfailure
    | tooDeep deep => exact repeatable_const _
  exact hrun.bind hnext

variable {engine : Engine σ} {call : String → Attempt σ MatchTree}

theorem literal_repeatable (hnote : Absorbing engine.note) (value : String) (pos : Nat) :
    Repeatable engine.note (engine.literal value pos) := by
  unfold Engine.literal
  split
  · exact repeatable_note hnote _ _
  · exact repeatable_note hnote _ _

theorem sequence_repeatable {ps : List Pattern}
    (hps : ∀ p ∈ ps, ∀ pos, Repeatable engine.note (engine.pattern call p pos)) (pos : Nat) :
    Repeatable engine.note (engine.sequence call ps pos) := by
  induction ps generalizing pos with
  | nil => exact repeatable_const _
  | cons p ps ih =>
      have htail := ih fun q hq => hps q (List.mem_cons_of_mem _ hq)
      refine .of_eq (sequence_cons engine call p ps pos) ?_
      exact (hps p List.mem_cons_self pos).proceed (fun stop nodes => (htail stop).map _)
        (repeatable_const _)

theorem choice_repeatable {ps : List Pattern}
    (hps : ∀ p ∈ ps, ∀ pos, Repeatable engine.note (engine.pattern call p pos)) (pos : Nat) :
    Repeatable engine.note (engine.choice call ps pos) := by
  induction ps with
  | nil => exact repeatable_const _
  | cons p ps ih =>
      have htail := ih fun q hq => hps q (List.mem_cons_of_mem _ hq)
      refine .of_eq (choice_cons engine call p ps pos) ?_
      exact (hps p List.mem_cons_self pos).proceed (fun _ _ => repeatable_const _) htail

theorem greedy_repeatable {attempt : Attempt σ (List MatchTree)}
    (hattempt : ∀ pos, Repeatable note (attempt pos)) (fuel pos : Nat) :
    Repeatable note (greedy attempt fuel pos) := by
  induction fuel generalizing pos with
  | zero => exact repeatable_const _
  | succ fuel ih =>
      refine .of_eq (greedy_succ pos · attempt fuel) ?_
      refine (hattempt pos).proceed (fun stop nodes => ?_) (repeatable_const _)
      split
      · exact repeatable_const _
      · exact (ih stop).map _

/-- **`engine.pattern` is `Repeatable` if `call` is.** Induction on the pattern. -/
theorem pattern_repeatable (hnote : Absorbing engine.note)
    (hcall : ∀ name pos, Repeatable engine.note (call name pos)) (p : Pattern) (pos : Nat) :
    Repeatable engine.note (engine.pattern call p pos) := by
  induction p using Pattern.inductionOn generalizing pos with
  | literal value => exact (literal_repeatable hnote value pos).map _
  | ref name => exact (hcall name pos).map _
  | seq ps ih => exact sequence_repeatable ih pos
  | choice ps ih => exact choice_repeatable ih pos
  | opt p ih =>
      refine .of_eq (pattern_opt engine call p pos) ?_
      exact (ih pos).proceed (fun _ _ => repeatable_const _) (repeatable_const _)
  | rep p ih => exact greedy_repeatable ih _ pos

theorem call_repeatable {depth : Nat} {active : List (Nat × Nat)} (hnote : Absorbing engine.note)
    (hrule : ∀ index pos, Repeatable engine.note (engine.rule depth active index pos)) (name : String)
    (pos : Nat) : Repeatable engine.note (engine.call depth active name pos) := by
  unfold Engine.call
  cases engine.table.indexOf? name with
  | none => exact repeatable_note hnote _ _
  | some next => exact hrule next pos

/-- **`engine.rule` is `Repeatable`.** Induction on `depth`. -/
theorem rule_repeatable (hnote : Absorbing engine.note) (depth : Nat) (active : List (Nat × Nat))
    (index pos : Nat) : Repeatable engine.note (engine.rule depth active index pos) := by
  induction depth generalizing active index pos with
  | zero =>
      cases hrule : engine.table.ruleAt? index with
      | none => exact .of_eq (rule_missing pos · hrule) (repeatable_const _)
      | some rule => exact .of_eq (rule_zero pos · hrule) (repeatable_note hnote _ _)
  | succ depth ih =>
      cases hrule : engine.table.ruleAt? index with
      | none => exact .of_eq (rule_missing pos · hrule) (repeatable_const _)
      | some rule =>
          by_cases hactive : (index, pos) ∈ active
          · exact .of_eq (rule_active pos · hrule hactive) (repeatable_note hnote _ _)
          · have hcalls := call_repeatable hnote (ih ((index, pos) :: active))
            have hbody := pattern_repeatable hnote hcalls rule.pattern pos
            refine .of_eq (fun s => rule_succ hrule hactive) ?_
            exact (repeatable_note hnote () _).bind fun _ => hbody.map _

end PegTree.Match
