import Mathlib.Data.List.Forall2
import PegTree.Proofs.Rerun

/-!
# `Proofs.PatternLaws` — patterns that can stand for each other anywhere

Some patterns differ in how they are written and not in how they match: a sequence of one part, a choice in a
choice, an optional repetition. `Pattern.Law` lists such pairs, and `Pattern.Equivalent` is what can be
rewritten with them, in any place and any number of times. Equivalent rules give equal results, tree or error,
whatever the input, the limits and the rule that is asked for (`matchInput_equivalent`).

Most laws hold because both sides make the same attempts in the same order. Two are different: a repeated
repetition tries its last round again, and an alternative that stands twice is tried twice. There an attempt
is made again at the same place, which `Proofs.Rerun` shows to add nothing.

The laws are proved for patterns under fixed calls (`law_same`) and carried through all contexts
(`equivalent_same`). Rules call each other, so an induction on the levels to go follows, in which the calls on
both sides already agree (`rule_same`).
-/

namespace PegTree

/-! ## The laws -/

namespace Pattern

/-- **Laws of patterns**, left to right a simplification. -/
inductive Law : Pattern → Pattern → Prop where
  | seqSingle (p) : Law (.seq [p]) p
  | choiceSingle (p) : Law (.choice [p]) p
  | seqNested (ps qs rs) : Law (.seq (ps ++ .seq qs :: rs)) (.seq (ps ++ qs ++ rs))
  | choiceNested (ps qs rs) : Law (.choice (ps ++ .choice qs :: rs)) (.choice (ps ++ qs ++ rs))
  | optOpt (p) : Law (.opt (.opt p)) (.opt p)
  | optRep (p) : Law (.opt (.rep p)) (.rep p)
  | repOpt (p) : Law (.rep (.opt p)) (.rep p)
  | repRep (p) : Law (.rep (.rep p)) (.rep p)
  -- an alternative that has failed is not worth a second try
  | choiceAgain (ps p qs rs) :
      Law (.choice (ps ++ p :: qs ++ p :: rs)) (.choice (ps ++ p :: qs ++ rs))

/-- **`Pattern.Equivalent`** is the congruence generated by `Pattern.Law`. -/
inductive Equivalent : Pattern → Pattern → Prop where
  | law {p q} : Law p q → Equivalent p q
  | refl (p) : Equivalent p p
  | symm {p q} : Equivalent p q → Equivalent q p
  | trans {p q r} : Equivalent p q → Equivalent q r → Equivalent p r
  | seq {p q} (ps rs) : Equivalent p q → Equivalent (.seq (ps ++ p :: rs)) (.seq (ps ++ q :: rs))
  | choice {p q} (ps rs) : Equivalent p q → Equivalent (.choice (ps ++ p :: rs)) (.choice (ps ++ q :: rs))
  | opt {p q} : Equivalent p q → Equivalent (.opt p) (.opt q)
  | rep {p q} : Equivalent p q → Equivalent (.rep p) (.rep q)

end Pattern

def Rule.Equivalent (rule rule' : Rule) : Prop :=
  rule'.name = rule.name ∧ rule.pattern.Equivalent rule'.pattern

/-- **Tables with equivalent rules**, index by index. -/
def Table.Equivalent (table table' : Table) : Prop :=
  List.Forall₂ Rule.Equivalent table.rules table'.rules

namespace Match

variable {σ α β : Type}

/-! ## Sequences and choices in parts -/

theorem after_nil (result : Outcome (List MatchTree) × σ) : after [] result = result := by
  obtain ⟨_ | _ | _, s⟩ := result <;> rfl

theorem after_after (xs ys : List MatchTree) (result : Outcome (List MatchTree) × σ) :
    after xs (after ys result) = after (xs ++ ys) result := by
  obtain ⟨⟨stop, nodes⟩ | _ | _, s⟩ := result
  · simp only [after, Outcome.map, List.append_assoc]
  · rfl
  · rfl

theorem Outcome.map_eq_failed {f : Nat → α → β} {outcome : Outcome α} (h : outcome.map f = .failed) :
    outcome = .failed := by
  cases outcome with
  | matched stop product => cases h
  | failed => rfl
  | tooDeep deep => cases h

/-- `proceed` depends on `onMatch` and `onFailure` only at the outcomes of `result`. -/
theorem proceed_congr {onMatch onMatch' : Nat → α → σ → Outcome β × σ}
    {onFailure onFailure' : σ → Outcome β × σ} {result : Outcome α × σ}
    (hmatch : ∀ stop product s, result = (.matched stop product, s) →
      onMatch stop product s = onMatch' stop product s)
    (hfailure : ∀ s, result = (.failed, s) → onFailure s = onFailure' s) :
    proceed onMatch onFailure result = proceed onMatch' onFailure' result := by
  obtain ⟨⟨stop, product⟩ | _ | _, s⟩ := result
  · exact hmatch stop product s rfl
  · exact hfailure s rfl
  · rfl

variable {engine : Engine σ} {call : String → Attempt σ MatchTree}

theorem sequence_append (ps qs : List Pattern) (pos : Nat) (s : σ) :
    engine.sequence call (ps ++ qs) pos s
      = proceed (fun stop nodes s => after nodes (engine.sequence call qs stop s)) (fun s => (.failed, s))
          (engine.sequence call ps pos s) := by
  induction ps generalizing pos s with
  | nil => exact (after_nil _).symm
  | cons p ps ih =>
      rw [List.cons_append, sequence_cons, sequence_cons]
      rcases engine.pattern call p pos s with ⟨⟨mid, xs⟩ | _ | _, s'⟩
      · simp only [proceed, ih]
        rcases engine.sequence call ps mid s' with ⟨⟨stop, ys⟩ | _ | _, s''⟩
        · exact after_after xs ys _
        · rfl
        · rfl
      · rfl
      · rfl

theorem choice_append (ps qs : List Pattern) (pos : Nat) (s : σ) :
    engine.choice call (ps ++ qs) pos s
      = proceed (fun stop nodes s => (.matched stop nodes, s)) (engine.choice call qs pos)
          (engine.choice call ps pos s) := by
  induction ps generalizing s with
  | nil => rfl
  | cons p ps ih =>
      rw [List.cons_append, choice_cons, choice_cons]
      rcases engine.pattern call p pos s with ⟨_ | _ | _, s'⟩
      · rfl
      · exact ih s'
      · rfl

/-! ## Laws that keep the attempts -/

theorem sequence_single (p : Pattern) (pos : Nat) :
    engine.sequence call [p] pos = engine.pattern call p pos := by
  funext s
  rw [sequence_cons]
  rcases engine.pattern call p pos s with ⟨⟨stop, nodes⟩ | _ | _, s'⟩
  · simp only [proceed, Engine.sequence, after, Outcome.map, List.append_nil]
  · rfl
  · rfl

theorem choice_single (p : Pattern) (pos : Nat) :
    engine.choice call [p] pos = engine.pattern call p pos := by
  funext s
  rw [choice_cons]
  rcases engine.pattern call p pos s with ⟨_ | _ | _, s'⟩ <;> rfl

theorem sequence_nested (ps qs rs : List Pattern) (pos : Nat) :
    engine.sequence call (ps ++ .seq qs :: rs) pos = engine.sequence call (ps ++ qs ++ rs) pos := by
  have hinner : ∀ pos, engine.sequence call (.seq qs :: rs) pos = engine.sequence call (qs ++ rs) pos := by
    intro pos
    funext s
    rw [sequence_cons, sequence_append]
    rfl
  funext s
  rw [List.append_assoc, sequence_append, sequence_append ps]
  simp only [hinner]

theorem choice_nested (ps qs rs : List Pattern) (pos : Nat) :
    engine.choice call (ps ++ .choice qs :: rs) pos = engine.choice call (ps ++ qs ++ rs) pos := by
  have hinner : engine.choice call (.choice qs :: rs) pos = engine.choice call (qs ++ rs) pos := by
    funext s
    rw [choice_cons, choice_append]
    rfl
  funext s
  rw [List.append_assoc, choice_append, choice_append ps, hinner]

theorem pattern_opt_of_ne_failed {p : Pattern} {pos : Nat}
    (h : ∀ s, (engine.pattern call p pos s).1 ≠ .failed) :
    engine.pattern call (.opt p) pos = engine.pattern call p pos := by
  funext s
  rw [pattern_opt]
  rcases hbody : engine.pattern call p pos s with ⟨_ | _ | _, s'⟩
  · rfl
  · exact absurd (by rw [hbody]) (h s)
  · rfl

theorem pattern_opt_ne_failed (p : Pattern) (pos : Nat) (s : σ) :
    (engine.pattern call (.opt p) pos s).1 ≠ .failed := by
  rw [pattern_opt]
  rcases engine.pattern call p pos s with ⟨_ | _ | _, s'⟩ <;> simp [proceed]

theorem greedy_ne_failed (attempt : Attempt σ (List MatchTree)) (fuel pos : Nat) (s : σ) :
    (greedy attempt fuel pos s).1 ≠ .failed := by
  induction fuel generalizing pos s with
  | zero => simp [greedy]
  | succ fuel ih =>
      rw [greedy_succ]
      rcases attempt pos s with ⟨⟨stop, nodes⟩ | _ | _, s'⟩
      · simp only [proceed]
        split
        · simp
        · rw [after_fst]
          exact fun hfailed => ih stop s' (Outcome.map_eq_failed hfailed)
      · simp [proceed]
      · simp [proceed]

theorem pattern_rep_ne_failed (p : Pattern) (pos : Nat) (s : σ) :
    (engine.pattern call (.rep p) pos s).1 ≠ .failed :=
  greedy_ne_failed _ _ pos s

/-- A failed round of `greedy` ends it as a round of width `0` does. -/
theorem greedy_opt (p : Pattern) (fuel pos : Nat) :
    greedy (engine.pattern call (.opt p)) fuel pos = greedy (engine.pattern call p) fuel pos := by
  induction fuel generalizing pos with
  | zero => rfl
  | succ fuel ih =>
      funext s
      rw [greedy_succ, greedy_succ, pattern_opt]
      rcases engine.pattern call p pos s with ⟨_ | _ | _, s'⟩
      · simp only [proceed, ih]
      · simp only [proceed, if_true]
      · rfl

/-! ## Laws that try again -/

/-- What the laws ask of `call`: productions of the input, and `Repeatable`. -/
structure Reliable (engine : Engine σ) (call : String → Attempt σ MatchTree) : Prop where
  absorbing : Absorbing engine.note
  produces : CallsProduce engine.table engine.input call
  repeatable : ∀ name pos, Repeatable engine.note (call name pos)

theorem Reliable.forward (h : Reliable engine call) (p : Pattern) :
    Forward engine.input (engine.pattern call p) :=
  pattern_forward h.produces p

/-- `engine.pattern` again at the same place, in any `Later` state, has the same outcome and leaves the state. -/
theorem Reliable.again (h : Reliable engine call) (p : Pattern) {pos : Nat} {s s' t : σ}
    {outcome : Outcome (List MatchTree)} (hfirst : engine.pattern call p pos s = (outcome, s'))
    (hlater : Later engine.note s' t) : engine.pattern call p pos t = (outcome, t) := by
  have hrepeatable := (pattern_repeatable h.absorbing h.repeatable p pos s).2
  rw [hfirst] at hrepeatable
  exact hrepeatable t hlater

/-- **`.rep p` at the place where it stopped matches nothing more**; if it stopped where it started it has no nodes.
    Induction on `input.size - pos`. -/
theorem rep_settled (h : Reliable engine call) (p : Pattern) {pos stop : Nat} {s s' : σ}
    {nodes : List MatchTree} (hpos : pos ≤ engine.input.size)
    (hrep : engine.pattern call (.rep p) pos s = (.matched stop nodes, s')) :
    pos ≤ stop ∧ (stop = pos → nodes = []) ∧
      engine.pattern call (.rep p) stop s' = (.matched stop [], s') := by
  induction hleft : engine.input.size - pos using Nat.strongRecOn generalizing pos s nodes with
  | ind left ih =>
      rw [pattern_rep_eq p _ _ h.produces hpos] at hrep
      rcases hround : engine.pattern call p pos s with ⟨⟨mid, xs⟩ | _ | _, s₁⟩ <;>
        simp only [hround, proceed] at hrep
      · by_cases hmid : mid = pos
        · -- the last round takes nothing, and takes nothing again
          rw [if_pos hmid] at hrep
          cases hrep
          refine ⟨Nat.le_refl _, fun _ => rfl, ?_⟩
          rw [pattern_rep_eq p _ _ h.produces hpos, h.again p hround (.refl _)]
          exact if_pos hmid
        · rw [if_neg hmid] at hrep
          obtain ⟨hle, hsize⟩ := h.forward p pos s mid xs (by rw [hround]) hpos
          rcases hrest : engine.pattern call (.rep p) mid s₁ with ⟨⟨_, ys⟩ | _ | _, s₂⟩ <;>
            rw [hrest] at hrep <;> cases hrep
          obtain ⟨hle', _, hsettled⟩ := ih _ (by omega) hsize hrest rfl
          exact ⟨Nat.le_trans hle hle', fun heq => absurd heq (by omega), hsettled⟩
      · -- the last round fails, and fails again
        cases hrep
        refine ⟨Nat.le_refl _, fun _ => rfl, ?_⟩
        rw [pattern_rep_eq p _ _ h.produces hpos, h.again p hround (.refl _)]
        rfl
      · cases hrep

/-- **`repRep`**: the outer repetition makes one more round, of width `0` by `rep_settled`. -/
theorem rep_rep (h : Reliable engine call) (p : Pattern) {pos : Nat} (hpos : pos ≤ engine.input.size) :
    engine.pattern call (.rep (.rep p)) pos = engine.pattern call (.rep p) pos := by
  funext s
  rw [pattern_rep_eq (.rep p) pos s h.produces hpos]
  rcases hinner : engine.pattern call (.rep p) pos s with ⟨⟨stop, nodes⟩ | _ | _, s'⟩
  · obtain ⟨_, hnodes, hsettled⟩ := rep_settled h p hpos hinner
    have hsize := (h.forward (.rep p) pos s stop nodes (by rw [hinner]) hpos).2
    simp only [proceed]
    by_cases hstop : stop = pos
    · rw [if_pos hstop, hnodes hstop, hstop]
    · rw [if_neg hstop, pattern_rep_eq (.rep p) stop s' h.produces hsize, hsettled]
      simp only [proceed, if_true, after, Outcome.map, List.append_nil]
  · exact absurd (by rw [hinner]) (pattern_rep_ne_failed p pos s)
  · rfl

/-- **`choiceAgain`**: the second `p` fails as the first did, by `Reliable.again`, in the state that `qs` has
    left. -/
theorem choice_again (h : Reliable engine call) (ps : List Pattern) (p : Pattern) (qs rs : List Pattern)
    (pos : Nat) : engine.choice call (ps ++ p :: qs ++ p :: rs) pos
      = engine.choice call (ps ++ p :: qs ++ rs) pos := by
  have hinner : engine.choice call (p :: (qs ++ p :: rs)) pos = engine.choice call (p :: (qs ++ rs)) pos := by
    funext s
    rw [choice_cons, choice_cons]
    refine proceed_congr (fun _ _ _ _ => rfl) fun s₁ hfirst => ?_
    rw [choice_append, choice_append]
    refine proceed_congr (fun _ _ _ _ => rfl) fun s₂ hbetween => ?_
    have hlater : Later engine.note s₁ s₂ := by
      have hqs := (pattern_repeatable h.absorbing h.repeatable (.choice qs) pos s₁).1
      simpa only [Engine.pattern, hbetween] using hqs
    rw [choice_cons, h.again p hfirst hlater]
    rfl
  funext s
  rw [List.append_assoc, List.append_assoc, List.cons_append, List.cons_append, choice_append,
    choice_append ps, hinner]

/-! ## Equivalent patterns -/

/-- Equal attempts at all places of the input. -/
def Same (input : Input) (attempt attempt' : Attempt σ α) : Prop :=
  ∀ pos, pos ≤ input.size → attempt pos = attempt' pos

theorem greedy_same {input : Input} {attempt attempt' : Attempt σ (List MatchTree)}
    (hforward : Forward input attempt) (h : Same input attempt attempt') (fuel : Nat) :
    Same input (greedy attempt fuel) (greedy attempt' fuel) := by
  induction fuel with
  | zero => exact fun _ _ => rfl
  | succ fuel ih =>
      intro pos hpos
      funext s
      rw [greedy_succ, greedy_succ, ← h pos hpos]
      refine proceed_congr (fun stop nodes s' hround => ?_) fun _ _ => rfl
      have hstop := (hforward pos s stop nodes (by rw [hround]) hpos).2
      rw [ih stop hstop]

/-- **Both sides of a law are `Same`.** -/
theorem law_same {p q : Pattern} (h : Reliable engine call) (hlaw : Pattern.Law p q) :
    Same engine.input (engine.pattern call p) (engine.pattern call q) := by
  intro pos hpos
  cases hlaw with
  | seqSingle _ => exact sequence_single _ pos
  | choiceSingle _ => exact choice_single _ pos
  | seqNested ps qs rs => exact sequence_nested ps qs rs pos
  | choiceNested ps qs rs => exact choice_nested ps qs rs pos
  | optOpt p => exact pattern_opt_of_ne_failed (pattern_opt_ne_failed p pos)
  | optRep p => exact pattern_opt_of_ne_failed (pattern_rep_ne_failed p pos)
  | repOpt p => exact greedy_opt p _ pos
  | repRep p => exact rep_rep h p hpos
  | choiceAgain ps p qs rs => exact choice_again h ps p qs rs pos

/-- **`Pattern.Equivalent` patterns are `Same`.** Induction on the equivalence, with the congruences of
    `Engine.pattern`. -/
theorem equivalent_same {p q : Pattern} (h : Reliable engine call) (hequiv : p.Equivalent q) :
    Same engine.input (engine.pattern call p) (engine.pattern call q) := by
  induction hequiv with
  | law hlaw => exact law_same h hlaw
  | refl p => exact fun _ _ => rfl
  | symm _ ih => exact fun pos hpos => (ih pos hpos).symm
  | trans _ _ ih₁ ih₂ => exact fun pos hpos => (ih₁ pos hpos).trans (ih₂ pos hpos)
  | @seq p q ps rs _ ih =>
      intro pos hpos
      funext s
      refine (sequence_append ps (p :: rs) pos s).trans (.trans ?_ (sequence_append ps (q :: rs) pos s).symm)
      refine proceed_congr (fun stop nodes s' hmatched => ?_) fun _ _ => rfl
      have hstop := (h.forward (.seq ps) pos s stop nodes (by rw [Engine.pattern, hmatched]) hpos).2
      rw [sequence_cons, sequence_cons, ih stop hstop]
  | @choice p q ps rs _ ih =>
      intro pos hpos
      funext s
      refine (choice_append ps (p :: rs) pos s).trans (.trans ?_ (choice_append ps (q :: rs) pos s).symm)
      refine proceed_congr (fun _ _ _ _ => rfl) fun s' _ => ?_
      rw [choice_cons, choice_cons, ih pos hpos]
  | opt _ ih =>
      intro pos hpos
      funext s
      rw [pattern_opt, pattern_opt, ih pos hpos]
  | @rep p q _ ih => exact fun pos hpos => greedy_same (h.forward p) ih _ pos hpos

/-! ## Equivalent tables -/

/-- `engine` with another table. -/
def Engine.over (engine : Engine σ) (table : Table) : Engine σ :=
  { engine with table := table }

section Calls

variable {call' : String → Attempt σ MatchTree} {table' : Table}

theorem sequence_calls_same (hproduces : CallsProduce engine.table engine.input call) {ps : List Pattern}
    (hps : ∀ p ∈ ps, Same engine.input (engine.pattern call p) ((engine.over table').pattern call' p)) :
    Same engine.input (engine.sequence call ps) ((engine.over table').sequence call' ps) := by
  induction ps with
  | nil => exact fun _ _ => rfl
  | cons p ps ih =>
      intro pos hpos
      have htail := ih fun q hq => hps q (List.mem_cons_of_mem _ hq)
      funext s
      rw [sequence_cons, sequence_cons, ← hps p List.mem_cons_self pos hpos]
      refine proceed_congr (fun stop nodes s' hmatched => ?_) fun _ _ => rfl
      have hstop := (pattern_forward hproduces p pos s stop nodes (by rw [hmatched]) hpos).2
      rw [htail stop hstop]

theorem choice_calls_same {ps : List Pattern}
    (hps : ∀ p ∈ ps, Same engine.input (engine.pattern call p) ((engine.over table').pattern call' p)) :
    Same engine.input (engine.choice call ps) ((engine.over table').choice call' ps) := by
  induction ps with
  | nil => exact fun _ _ => rfl
  | cons p ps ih =>
      intro pos hpos
      have htail := ih fun q hq => hps q (List.mem_cons_of_mem _ hq)
      funext s
      rw [choice_cons, choice_cons, ← hps p List.mem_cons_self pos hpos, htail pos hpos]

/-- `engine.pattern` uses the table through `call` alone. -/
theorem pattern_calls_same (hproduces : CallsProduce engine.table engine.input call)
    (hcalls : ∀ name, Same engine.input (call name) (call' name)) (p : Pattern) :
    Same engine.input (engine.pattern call p) ((engine.over table').pattern call' p) := by
  induction p using Pattern.inductionOn with
  | literal value => exact fun _ _ => rfl
  | ref name =>
      intro pos hpos
      funext s
      rw [Engine.pattern, Engine.pattern, hcalls name pos hpos]
  | seq ps ih => exact sequence_calls_same hproduces ih
  | choice ps ih => exact choice_calls_same ih
  | opt p ih =>
      intro pos hpos
      funext s
      rw [pattern_opt, pattern_opt, ih pos hpos]
  | rep p ih => exact fun pos hpos => greedy_same (pattern_forward hproduces p) ih _ pos hpos

end Calls

end Match

namespace Table.Equivalent

variable {table table' : Table}

theorem ruleAt?_eq_none (h : table.Equivalent table') {index : Nat} (hrule : table.ruleAt? index = none) :
    table'.ruleAt? index = none := by
  refine List.getElem?_eq_none_iff.mpr ?_
  rw [← h.length_eq]
  exact List.getElem?_eq_none_iff.mp hrule

theorem exists_ruleAt? (h : table.Equivalent table') {index : Nat} {rule : Rule}
    (hrule : table.ruleAt? index = some rule) :
    ∃ rule', table'.ruleAt? index = some rule' ∧ rule.Equivalent rule' := by
  obtain ⟨rules⟩ := table
  obtain ⟨rules'⟩ := table'
  simp only [Table.Equivalent, Table.ruleAt?] at h hrule ⊢
  induction h generalizing index with
  | nil => cases hrule
  | cons hfirst _ ih =>
      cases index with
      | zero =>
          cases hrule
          exact ⟨_, rfl, hfirst⟩
      | succ index => exact ih hrule

theorem indexOf?_eq (h : table.Equivalent table') (name : String) :
    table'.indexOf? name = table.indexOf? name := by
  obtain ⟨rules⟩ := table
  obtain ⟨rules'⟩ := table'
  simp only [Table.Equivalent, Table.indexOf?] at h ⊢
  induction h with
  | nil => rfl
  | cons hrule _ ih => rw [List.findIdx?_cons, List.findIdx?_cons, hrule.1, ih]

end Table.Equivalent

namespace Match

variable {σ : Type} {table' : Table}

theorem call_same (engine : Engine σ) (h : engine.table.Equivalent table') {depth : Nat}
    {active : List (Nat × Nat)}
    (hrules : ∀ index, Same engine.input (engine.rule depth active index)
      ((engine.over table').rule depth active index)) (name : String) :
    Same engine.input (engine.call depth active name) ((engine.over table').call depth active name) := by
  intro pos hpos
  have hindex : (engine.over table').table.indexOf? name = engine.table.indexOf? name := h.indexOf?_eq name
  funext s
  simp only [Engine.call, hindex]
  cases engine.table.indexOf? name with
  | none => rfl
  | some index => exact congrFun (hrules index pos hpos) s

/-- **Equivalent tables have `Same` rules.** Induction on `depth`: the calls one level down agree, so
    `equivalent_same` applies to the patterns. -/
theorem rule_same (engine : Engine σ) (hnote : Absorbing engine.note)
    (h : engine.table.Equivalent table') (depth : Nat) (active : List (Nat × Nat)) (index : Nat) :
    Same engine.input (engine.rule depth active index) ((engine.over table').rule depth active index) := by
  induction depth generalizing active index with
  | zero =>
      intro pos _
      funext s
      cases hrule : engine.table.ruleAt? index with
      | none =>
          have hrule' : (engine.over table').table.ruleAt? index = none := h.ruleAt?_eq_none hrule
          rw [rule_missing pos s hrule, rule_missing pos s hrule']
      | some rule =>
          obtain ⟨rule', hrule', _⟩ := h.exists_ruleAt? hrule
          have hrule' : (engine.over table').table.ruleAt? index = some rule' := hrule'
          rw [rule_zero pos s hrule, rule_zero pos s hrule']
          rfl
  | succ depth ih =>
      intro pos hpos
      funext s
      cases hrule : engine.table.ruleAt? index with
      | none =>
          have hrule' : (engine.over table').table.ruleAt? index = none := h.ruleAt?_eq_none hrule
          rw [rule_missing pos s hrule, rule_missing pos s hrule']
      | some rule =>
          obtain ⟨rule', hrule', hname, hpattern⟩ := h.exists_ruleAt? hrule
          have hrule' : (engine.over table').table.ruleAt? index = some rule' := hrule'
          by_cases hactive : (index, pos) ∈ active
          · rw [rule_active pos s hrule hactive, rule_active pos s hrule' hactive]
            rfl
          · have hcalls := call_same engine h (ih ((index, pos) :: active))
            have hproduce : CallsProduce engine.table engine.input
                (engine.call depth ((index, pos) :: active)) := calls_produce _ _
            have hreliable : Reliable engine (engine.call depth ((index, pos) :: active)) :=
              ⟨hnote, hproduce, call_repeatable hnote (rule_repeatable hnote depth _)⟩
            rw [rule_succ hrule hactive, rule_succ hrule' hactive, hname,
              equivalent_same hreliable hpattern pos hpos,
              pattern_calls_same hproduce hcalls rule'.pattern pos hpos]
            rfl

/-- **`matchInput` is invariant under `Table.Equivalent`**: equal trees and equal errors, for every index, input and
    settings. -/
theorem matchInput_equivalent {table : Table} (h : table.Equivalent table') (index : Nat)
    (input : Input) (settings : Settings) :
    matchInput table' index input settings = matchInput table index input settings := by
  have hsame := rule_same (reportingEngine table input settings) (Furthest.absorbing settings.maxExpected) h
    settings.maxDepth [] index 0 (Nat.zero_le _)
  rw [matchInput_eq, matchInput_eq, hsame]
  rfl

/-- `list := item?**` and `item := ("a") | ("b" | "a")`, written with more than is needed. -/
def wordyTable : Table :=
  ⟨[⟨"list", .rep (.rep (.opt (.ref "item")))⟩,
    ⟨"item", .choice [.seq [.literal "a"], .choice [.literal "b", .literal "a"]]⟩]⟩

/-- `list := item*` and `item := "a" | "b"`. -/
def plainTable : Table :=
  ⟨[⟨"list", .rep (.ref "item")⟩, ⟨"item", .choice [.literal "a", .literal "b"]⟩]⟩

theorem wordyTable_equivalent : wordyTable.Equivalent plainTable := by
  have hlist : (Pattern.rep (.rep (.opt (.ref "item")))).Equivalent (.rep (.ref "item")) :=
    .trans (.law (.repRep _)) (.law (.repOpt _))
  have hsplice : (Pattern.choice [.seq [.literal "a"], .choice [.literal "b", .literal "a"]]).Equivalent
      (.choice [.seq [.literal "a"], .literal "b", .literal "a"]) :=
    .law (.choiceNested [.seq [.literal "a"]] [.literal "b", .literal "a"] [])
  have hsingle : (Pattern.choice [.seq [.literal "a"], .literal "b", .literal "a"]).Equivalent
      (.choice [.literal "a", .literal "b", .literal "a"]) :=
    .choice [] [.literal "b", .literal "a"] (.law (.seqSingle _))
  have hagain : (Pattern.choice [.literal "a", .literal "b", .literal "a"]).Equivalent
      (.choice [.literal "a", .literal "b"]) :=
    .law (.choiceAgain [] (.literal "a") [.literal "b"] [])
  exact .cons ⟨rfl, hlist⟩ (.cons ⟨rfl, .trans hsplice (.trans hsingle hagain)⟩ .nil)

theorem matchInput_equivalent_wordyTable :
    wordyTable.Equivalent plainTable ∧
      matchInput plainTable 0 (.ofTokens ["a", "b", "c"]) {}
        = matchInput wordyTable 0 (.ofTokens ["a", "b", "c"]) {} ∧
      matchInput wordyTable 0 (.ofTokens ["a", "b", "c"]) {}
        = .error { kind := .trailingInput, position := 2, expected := ["\"a\"", "\"b\""], found := some "c" } :=
  ⟨wordyTable_equivalent, matchInput_equivalent wordyTable_equivalent 0 _ _, by rfl⟩

end Match

end PegTree
