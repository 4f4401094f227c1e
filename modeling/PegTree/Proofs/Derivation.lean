import PegTree.Proofs.Production

/-!
# `Proofs.Derivation` — ordered choice without an engine, and why the engine agrees with it

`Derivation table input goal pos verdict` is the textbook reading of a grammar: a derivation tree whose
rules speak of patterns, rules and places only. There is no set of active rules, no depth and no note of
what was missed; a goal that would have to be matched in order to match itself simply has no derivation.

The engine carries all of that, and three facts make it invisible:

* **One verdict, one size.** A goal at a place has at most one derivation (`Derivation.unique`): ordered
  choice leaves nothing open. In particular all its derivations have the same number of steps.
* **The guard never fires.** While the engine works on a part of a derivation, every active rule stands
  for a strictly larger derivation (`Heavier`). A rule that is active at the place where it is called
  would have two sizes.
* **Depth is the only way out.** An attempt ends with the derived verdict, or too deep with fewer levels
  to go than the derivation has steps (`Agrees`).

`matchInput_of_derives` reads this off for whole inputs.
-/

namespace PegTree.Match

/-! ## Derivations -/

/-- What is to be matched: a pattern, or the rule at an index of the table. -/
inductive Goal where
  | pattern (p : Pattern)
  | rule (index : Nat)

/-- How matching ends when nothing cuts it short. -/
inductive Verdict where
  /-- Matched up to `stop`, producing `nodes`. -/
  | matched (stop : Nat) (nodes : List MatchTree)
  | failed

/-- **Derivations of ordered choice**: `goal` at `pos` has the verdict. Failures have derivations as matches do. The
    type carries data, so that `Derivation.size` can count its steps. -/
inductive Derivation (table : Table) (input : Input) : Goal → (pos : Nat) → Verdict → Type where
  | literal {value pos stop} : input.matchLiteral? pos value = some stop →
      Derivation table input (.pattern (.literal value)) pos
        (.matched stop [.node ⟨.literal value, ⟨pos, stop⟩⟩ []])
  | literalMissed {value pos} : input.matchLiteral? pos value = none →
      Derivation table input (.pattern (.literal value)) pos .failed
  -- a reference stands for the first rule of its name
  | ref {name index pos verdict} : table.indexOf? name = some index →
      Derivation table input (.rule index) pos verdict →
      Derivation table input (.pattern (.ref name)) pos verdict
  | refDangling {name pos} : table.indexOf? name = none →
      Derivation table input (.pattern (.ref name)) pos .failed
  -- a sequence threads the place and fails with its first failing part
  | seqNil {pos} : Derivation table input (.pattern (.seq [])) pos (.matched pos [])
  | seqCons {p ps pos mid stop xs ys} : Derivation table input (.pattern p) pos (.matched mid xs) →
      Derivation table input (.pattern (.seq ps)) mid (.matched stop ys) →
      Derivation table input (.pattern (.seq (p :: ps))) pos (.matched stop (xs ++ ys))
  | seqHeadFailed {p ps pos} : Derivation table input (.pattern p) pos .failed →
      Derivation table input (.pattern (.seq (p :: ps))) pos .failed
  | seqTailFailed {p ps pos mid xs} : Derivation table input (.pattern p) pos (.matched mid xs) →
      Derivation table input (.pattern (.seq ps)) mid .failed →
      Derivation table input (.pattern (.seq (p :: ps))) pos .failed
  -- a choice takes the first alternative that matches, all at the same place
  | choiceNil {pos} : Derivation table input (.pattern (.choice [])) pos .failed
  | choiceHead {p ps pos stop nodes} :
      Derivation table input (.pattern p) pos (.matched stop nodes) →
      Derivation table input (.pattern (.choice (p :: ps))) pos (.matched stop nodes)
  | choiceTail {p ps pos verdict} : Derivation table input (.pattern p) pos .failed →
      Derivation table input (.pattern (.choice ps)) pos verdict →
      Derivation table input (.pattern (.choice (p :: ps))) pos verdict
  | optSome {p pos stop nodes} : Derivation table input (.pattern p) pos (.matched stop nodes) →
      Derivation table input (.pattern (.opt p)) pos (.matched stop nodes)
  | optNone {p pos} : Derivation table input (.pattern p) pos .failed →
      Derivation table input (.pattern (.opt p)) pos (.matched pos [])
  -- a repetition ends with a failing round, or with a round that takes nothing and is dropped
  | repFailed {p pos} : Derivation table input (.pattern p) pos .failed →
      Derivation table input (.pattern (.rep p)) pos (.matched pos [])
  | repIdle {p pos nodes} : Derivation table input (.pattern p) pos (.matched pos nodes) →
      Derivation table input (.pattern (.rep p)) pos (.matched pos [])
  | repMore {p pos mid stop xs ys} : Derivation table input (.pattern p) pos (.matched mid xs) →
      mid ≠ pos → Derivation table input (.pattern (.rep p)) mid (.matched stop ys) →
      Derivation table input (.pattern (.rep p)) pos (.matched stop (xs ++ ys))
  -- a rule wraps what its pattern produces in one node
  | rule {index rule pos stop nodes} : table.ruleAt? index = some rule →
      Derivation table input (.pattern rule.pattern) pos (.matched stop nodes) →
      Derivation table input (.rule index) pos
        (.matched stop [.node ⟨.rule rule.name, ⟨pos, stop⟩⟩ nodes])
  | ruleFailed {index rule pos} : table.ruleAt? index = some rule →
      Derivation table input (.pattern rule.pattern) pos .failed →
      Derivation table input (.rule index) pos .failed
  | ruleMissing {index pos} : table.ruleAt? index = none →
      Derivation table input (.rule index) pos .failed

/-- Some `Derivation` has this verdict. -/
def Derives (table : Table) (input : Input) (goal : Goal) (pos : Nat) (verdict : Verdict) : Prop :=
  Nonempty (Derivation table input goal pos verdict)

variable {table : Table} {input : Input}

/-- The number of steps. -/
def Derivation.size {goal : Goal} {pos : Nat} {verdict : Verdict} :
    Derivation table input goal pos verdict → Nat
  | .literal _ => 1
  | .literalMissed _ => 1
  | .ref _ d => d.size + 1
  | .refDangling _ => 1
  | .seqNil => 1
  | .seqCons d e => d.size + e.size + 1
  | .seqHeadFailed d => d.size + 1
  | .seqTailFailed d e => d.size + e.size + 1
  | .choiceNil => 1
  | .choiceHead d => d.size + 1
  | .choiceTail d e => d.size + e.size + 1
  | .optSome d => d.size + 1
  | .optNone d => d.size + 1
  | .repFailed d => d.size + 1
  | .repIdle d => d.size + 1
  | .repMore d _ e => d.size + e.size + 1
  | .rule _ d => d.size + 1
  | .ruleFailed _ d => d.size + 1
  | .ruleMissing _ => 1

/-- **`Derivation` is deterministic**: `goal` at `pos` has at most one verdict, and one `size` over all its
    derivations. -/
theorem Derivation.unique {goal : Goal} {pos : Nat} {v w : Verdict}
    (d : Derivation table input goal pos v) (e : Derivation table input goal pos w) :
    v = w ∧ d.size = e.size := by
  induction d generalizing w with
  | literal h =>
      cases e with
      | literal h' => cases h.symm.trans h'; exact ⟨rfl, rfl⟩
      | literalMissed h' => cases h.symm.trans h'
  | literalMissed h =>
      cases e with
      | literal h' => cases h.symm.trans h'
      | literalMissed h' => exact ⟨rfl, rfl⟩
  | ref h d ih =>
      cases e with
      | ref h' e =>
          cases h.symm.trans h'
          obtain ⟨rfl, hsize⟩ := ih e
          exact ⟨rfl, by simp only [size, hsize]⟩
      | refDangling h' => cases h.symm.trans h'
  | refDangling h =>
      cases e with
      | ref h' e => cases h.symm.trans h'
      | refDangling h' => exact ⟨rfl, rfl⟩
  | seqNil =>
      cases e with
      | seqNil => exact ⟨rfl, rfl⟩
  | seqCons d₁ d₂ ih₁ ih₂ =>
      cases e with
      | seqCons e₁ e₂ =>
          obtain ⟨hv₁, hsize₁⟩ := ih₁ e₁
          cases hv₁
          obtain ⟨hv₂, hsize₂⟩ := ih₂ e₂
          cases hv₂
          exact ⟨rfl, by simp only [size, hsize₁, hsize₂]⟩
      | seqHeadFailed e₁ => cases (ih₁ e₁).1
      | seqTailFailed e₁ e₂ =>
          cases (ih₁ e₁).1
          cases (ih₂ e₂).1
  | seqHeadFailed d ih =>
      cases e with
      | seqCons e₁ e₂ => cases (ih e₁).1
      | seqHeadFailed e₁ => exact ⟨rfl, by simp only [size, (ih e₁).2]⟩
      | seqTailFailed e₁ e₂ => cases (ih e₁).1
  | seqTailFailed d₁ d₂ ih₁ ih₂ =>
      cases e with
      | seqCons e₁ e₂ =>
          cases (ih₁ e₁).1
          cases (ih₂ e₂).1
      | seqHeadFailed e₁ => cases (ih₁ e₁).1
      | seqTailFailed e₁ e₂ =>
          obtain ⟨hv₁, hsize₁⟩ := ih₁ e₁
          cases hv₁
          exact ⟨rfl, by simp only [size, hsize₁, (ih₂ e₂).2]⟩
  | choiceNil =>
      cases e with
      | choiceNil => exact ⟨rfl, rfl⟩
  | choiceHead d ih =>
      cases e with
      | choiceHead e₁ =>
          obtain ⟨hv, hsize⟩ := ih e₁
          cases hv
          exact ⟨rfl, by simp only [size, hsize]⟩
      | choiceTail e₁ e₂ => cases (ih e₁).1
  | choiceTail d₁ d₂ ih₁ ih₂ =>
      cases e with
      | choiceHead e₁ => cases (ih₁ e₁).1
      | choiceTail e₁ e₂ =>
          obtain ⟨rfl, hsize₂⟩ := ih₂ e₂
          exact ⟨rfl, by simp only [size, (ih₁ e₁).2, hsize₂]⟩
  | optSome d ih =>
      cases e with
      | optSome e =>
          obtain ⟨hv, hsize⟩ := ih e
          cases hv
          exact ⟨rfl, by simp only [size, hsize]⟩
      | optNone e => cases (ih e).1
  | optNone d ih =>
      cases e with
      | optSome e => cases (ih e).1
      | optNone e => exact ⟨rfl, by simp only [size, (ih e).2]⟩
  | repFailed d ih =>
      cases e with
      | repFailed e => exact ⟨rfl, by simp only [size, (ih e).2]⟩
      | repIdle e => cases (ih e).1
      | repMore e₁ _ e₂ => cases (ih e₁).1
  | repIdle d ih =>
      cases e with
      | repFailed e => cases (ih e).1
      | repIdle e => exact ⟨rfl, by simp only [size, (ih e).2]⟩
      | repMore e₁ hmid e₂ =>
          obtain ⟨hv, -⟩ := ih e₁
          cases hv
          exact absurd rfl hmid
  | repMore d₁ hmid d₂ ih₁ ih₂ =>
      cases e with
      | repFailed e => cases (ih₁ e).1
      | repIdle e =>
          obtain ⟨hv, -⟩ := ih₁ e
          cases hv
          exact absurd rfl hmid
      | repMore e₁ _ e₂ =>
          obtain ⟨hv₁, hsize₁⟩ := ih₁ e₁
          cases hv₁
          obtain ⟨hv₂, hsize₂⟩ := ih₂ e₂
          cases hv₂
          exact ⟨rfl, by simp only [size, hsize₁, hsize₂]⟩
  | rule h d ih =>
      cases e with
      | rule h' e =>
          cases h.symm.trans h'
          obtain ⟨hv, hsize⟩ := ih e
          cases hv
          exact ⟨rfl, by simp only [size, hsize]⟩
      | ruleFailed h' e =>
          cases h.symm.trans h'
          cases (ih e).1
      | ruleMissing h' => cases h.symm.trans h'
  | ruleFailed h d ih =>
      cases e with
      | rule h' e =>
          cases h.symm.trans h'
          cases (ih e).1
      | ruleFailed h' e =>
          cases h.symm.trans h'
          exact ⟨rfl, by simp only [size, (ih e).2]⟩
      | ruleMissing h' => cases h.symm.trans h'
  | ruleMissing h =>
      cases e with
      | rule h' e => cases h.symm.trans h'
      | ruleFailed h' e => cases h.symm.trans h'
      | ruleMissing h' => exact ⟨rfl, rfl⟩

/-! ## Agreement of the engine -/

variable {σ : Type} {engine : Engine σ}

/-- The outcome of an attempt that ends with the verdict. -/
def Verdict.outcome : Verdict → Outcome (List MatchTree)
  | .matched stop nodes => .matched stop nodes
  | .failed => .failed

/-- **`Agrees room size verdict outcome`**: `outcome` is that of `verdict`, or `.tooDeep` with fewer levels (`room`)
    than the derivation has steps (`size`). -/
def Agrees (room size : Nat) (verdict : Verdict) (outcome : Outcome (List MatchTree)) : Prop :=
  outcome = verdict.outcome ∨ (room < size ∧ ∃ deep, outcome = .tooDeep deep)

/-- `call` `Agrees` with every derivation of a reference of at most `bound` steps. -/
def CallsAgree (engine : Engine σ) (call : String → Attempt σ MatchTree) (room bound : Nat) : Prop :=
  ∀ {name pos verdict} (d : Derivation engine.table engine.input (.pattern (.ref name)) pos verdict),
    d.size ≤ bound → pos ≤ engine.input.size →
    ∀ s, Agrees room d.size verdict (single (call name pos s)).1

theorem CallsAgree.mono {call : String → Attempt σ MatchTree} {room bound bound' : Nat}
    (h : CallsAgree engine call room bound) (hle : bound' ≤ bound) :
    CallsAgree engine call room bound' :=
  fun d hd => h d (Nat.le_trans hd hle)

theorem Agrees.mono {room size size' : Nat} {verdict : Verdict} {outcome : Outcome (List MatchTree)}
    (h : Agrees room size verdict outcome) (hle : size ≤ size') : Agrees room size' verdict outcome := by
  rcases h with h | ⟨hlt, hdeep⟩
  · exact Or.inl h
  · exact Or.inr ⟨Nat.lt_of_lt_of_le hlt hle, hdeep⟩

theorem Agrees.cases {room size : Nat} {verdict : Verdict} {result : Outcome (List MatchTree) × σ}
    (h : Agrees room size verdict result.1) :
    (∃ s, result = (verdict.outcome, s)) ∨ (room < size ∧ ∃ deep s, result = (.tooDeep deep, s)) := by
  obtain ⟨outcome, s⟩ := result
  rcases h with h | ⟨hlt, deep, h⟩
  · exact Or.inl ⟨s, Prod.ext h rfl⟩
  · exact Or.inr ⟨hlt, deep, s, Prod.ext h rfl⟩

/-- The verdict on a sequence whose first part has produced `nodes`. -/
def Verdict.prepend (nodes : List MatchTree) : Verdict → Verdict
  | .matched stop more => .matched stop (nodes ++ more)
  | .failed => .failed

theorem Agrees.prepend {room size : Nat} {verdict : Verdict} {result : Outcome (List MatchTree) × σ}
    (h : Agrees room size verdict result.1) (nodes : List MatchTree) :
    Agrees room size (verdict.prepend nodes) (after nodes result).1 := by
  rw [after_fst]
  rcases h with h | ⟨hlt, deep, h⟩
  · refine Or.inl ?_
    rw [h]
    cases verdict <;> rfl
  · exact Or.inr ⟨hlt, deep, by rw [h]; rfl⟩

/-- A `Derivation` of `.matched` is a `Produces`, or a `RuleProduces` for a rule. -/
theorem Derivation.produces {goal : Goal} {pos : Nat} {verdict : Verdict}
    (d : Derivation table input goal pos verdict) :
    match goal, verdict with
    | .pattern p, .matched stop nodes => Produces table input p pos stop nodes
    | .rule index, .matched stop nodes =>
        ∃ tree, nodes = [tree] ∧ RuleProduces table input index pos stop tree
    | _, .failed => True := by
  induction d with
  | literal h => exact .literal h
  | @ref name index pos verdict h d ih =>
      cases verdict with
      | failed => trivial
      | matched stop nodes =>
          obtain ⟨tree, rfl, rule, nodes, hat, hnodes, rfl⟩ := ih
          exact .ref h hat hnodes
  | seqNil => exact .seqNil
  | seqCons _ _ ih₁ ih₂ => exact .seqCons ih₁ ih₂
  | choiceHead _ ih => exact .choice List.mem_cons_self ih
  | @choiceTail p ps pos verdict _ _ _ ih₂ =>
      cases verdict with
      | failed => trivial
      | matched stop nodes =>
          cases ih₂ with
          | choice hmem hq => exact .choice (List.mem_cons_of_mem _ hmem) hq
  | optSome _ ih => exact .optSome ih
  | optNone _ _ => exact .optNone
  | repFailed _ _ => exact .repDone
  | repIdle _ _ => exact .repDone
  | repMore _ hmid _ ih₁ ih₂ => exact .repMore ih₁ hmid ih₂
  | rule h _ ih => exact ⟨_, rfl, _, _, h, ih, rfl⟩
  | literalMissed | refDangling | seqHeadFailed | seqTailFailed | choiceNil | ruleFailed | ruleMissing =>
      trivial

theorem Derivation.le_size {p : Pattern} {pos stop : Nat} {nodes : List MatchTree}
    (d : Derivation table input (.pattern p) pos (.matched stop nodes)) (hpos : pos ≤ input.size) :
    stop ≤ input.size :=
  Produces.le_size d.produces hpos

/-- **`engine.pattern` `Agrees` with derivations of patterns**, if `call` does with those of references. Induction
    on the derivation. -/
theorem goal_agrees {call : String → Attempt σ MatchTree} {room : Nat}
    (hproduce : CallsProduce engine.table engine.input call) {goal : Goal} {pos : Nat} {verdict : Verdict}
    (d : Derivation engine.table engine.input goal pos verdict) :
    ∀ p, goal = .pattern p → pos ≤ engine.input.size → CallsAgree engine call room d.size →
      ∀ s, Agrees room d.size verdict (engine.pattern call p pos s).1 := by
  induction d with
  | literal h =>
      rintro _ ⟨⟩ hpos hcall s
      exact Or.inl (by simp only [Engine.pattern, Engine.literal, h]; rfl)
  | literalMissed h =>
      rintro _ ⟨⟩ hpos hcall s
      exact Or.inl (by simp only [Engine.pattern, Engine.literal, h]; rfl)
  | ref h d ih =>
      rintro _ ⟨⟩ hpos hcall s
      exact hcall (.ref h d) (Nat.le_refl _) hpos s
  | refDangling h =>
      rintro _ ⟨⟩ hpos hcall s
      exact hcall (.refDangling h) (Nat.le_refl _) hpos s
  | seqNil =>
      rintro _ ⟨⟩ hpos hcall s
      exact Or.inl rfl
  | seqCons d₁ d₂ ih₁ ih₂ =>
      rintro _ ⟨⟩ hpos hcall s
      simp only [Derivation.size] at hcall ⊢
      rcases (ih₁ _ rfl hpos (hcall.mono (by omega)) s).cases with ⟨s', h⟩ | ⟨hlt, deep, s', h⟩
      · have htail := ih₂ _ rfl (d₁.le_size hpos) (hcall.mono (by omega)) s'
        simp only [Engine.pattern, Engine.sequence, h]
        exact (htail.prepend _).mono (by omega)
      · exact Or.inr ⟨by omega, deep, by simp only [Engine.pattern, Engine.sequence, h]⟩
  | seqHeadFailed d ih =>
      rintro _ ⟨⟩ hpos hcall s
      simp only [Derivation.size] at hcall ⊢
      rcases (ih _ rfl hpos (hcall.mono (by omega)) s).cases with ⟨s', h⟩ | ⟨hlt, deep, s', h⟩
      · exact Or.inl (by simp only [Engine.pattern, Engine.sequence, h]; rfl)
      · exact Or.inr ⟨by omega, deep, by simp only [Engine.pattern, Engine.sequence, h]⟩
  | seqTailFailed d₁ d₂ ih₁ ih₂ =>
      rintro _ ⟨⟩ hpos hcall s
      simp only [Derivation.size] at hcall ⊢
      rcases (ih₁ _ rfl hpos (hcall.mono (by omega)) s).cases with ⟨s', h⟩ | ⟨hlt, deep, s', h⟩
      · have htail := ih₂ _ rfl (d₁.le_size hpos) (hcall.mono (by omega)) s'
        simp only [Engine.pattern, Engine.sequence, h]
        exact (htail.prepend _).mono (by omega)
      · exact Or.inr ⟨by omega, deep, by simp only [Engine.pattern, Engine.sequence, h]⟩
  | choiceNil =>
      rintro _ ⟨⟩ hpos hcall s
      exact Or.inl rfl
  | choiceHead d ih =>
      rintro _ ⟨⟩ hpos hcall s
      simp only [Derivation.size] at hcall ⊢
      rcases (ih _ rfl hpos (hcall.mono (by omega)) s).cases with ⟨s', h⟩ | ⟨hlt, deep, s', h⟩
      · exact Or.inl (by simp only [Engine.pattern, Engine.choice, h]; rfl)
      · exact Or.inr ⟨by omega, deep, by simp only [Engine.pattern, Engine.choice, h]⟩
  | choiceTail d₁ d₂ ih₁ ih₂ =>
      rintro _ ⟨⟩ hpos hcall s
      simp only [Derivation.size] at hcall ⊢
      rcases (ih₁ _ rfl hpos (hcall.mono (by omega)) s).cases with ⟨s', h⟩ | ⟨hlt, deep, s', h⟩
      · have htail := ih₂ _ rfl hpos (hcall.mono (by omega)) s'
        simp only [Engine.pattern, Engine.choice, h]
        exact htail.mono (by omega)
      · exact Or.inr ⟨by omega, deep, by simp only [Engine.pattern, Engine.choice, h]⟩
  | optSome d ih =>
      rintro _ ⟨⟩ hpos hcall s
      simp only [Derivation.size] at hcall ⊢
      rcases (ih _ rfl hpos (hcall.mono (by omega)) s).cases with ⟨s', h⟩ | ⟨hlt, deep, s', h⟩
      · exact Or.inl (by simp only [Engine.pattern, h]; rfl)
      · exact Or.inr ⟨by omega, deep, by simp only [Engine.pattern, h]⟩
  | optNone d ih =>
      rintro _ ⟨⟩ hpos hcall s
      simp only [Derivation.size] at hcall ⊢
      rcases (ih _ rfl hpos (hcall.mono (by omega)) s).cases with ⟨s', h⟩ | ⟨hlt, deep, s', h⟩
      · exact Or.inl (by simp only [Engine.pattern, h]; rfl)
      · exact Or.inr ⟨by omega, deep, by simp only [Engine.pattern, h]⟩
  | repFailed d ih =>
      rintro _ ⟨⟩ hpos hcall s
      simp only [Derivation.size] at hcall ⊢
      rw [pattern_rep hproduce _ hpos]
      rcases (ih _ rfl hpos (hcall.mono (by omega)) s).cases with ⟨s', h⟩ | ⟨hlt, deep, s', h⟩
      · exact Or.inl (by rw [h]; rfl)
      · exact Or.inr ⟨by omega, deep, by rw [h]⟩
  | repIdle d ih =>
      rintro _ ⟨⟩ hpos hcall s
      simp only [Derivation.size] at hcall ⊢
      rw [pattern_rep hproduce _ hpos]
      rcases (ih _ rfl hpos (hcall.mono (by omega)) s).cases with ⟨s', h⟩ | ⟨hlt, deep, s', h⟩
      · exact Or.inl (by rw [h]; simp [Verdict.outcome])
      · exact Or.inr ⟨by omega, deep, by rw [h]⟩
  | repMore d₁ hmid d₂ ih₁ ih₂ =>
      rintro _ ⟨⟩ hpos hcall s
      simp only [Derivation.size] at hcall ⊢
      rw [pattern_rep hproduce _ hpos]
      rcases (ih₁ _ rfl hpos (hcall.mono (by omega)) s).cases with ⟨s', h⟩ | ⟨hlt, deep, s', h⟩
      · have hrest := ih₂ _ rfl (d₁.le_size hpos) (hcall.mono (by omega)) s'
        simp only [h, Verdict.outcome, if_neg hmid]
        exact (hrest.prepend _).mono (by omega)
      · exact Or.inr ⟨by omega, deep, by rw [h]⟩
  | rule | ruleFailed | ruleMissing => rintro _ ⟨⟩

/-! ## Rules, and why the guard stays silent -/

theorem Derivation.size_pos {goal : Goal} {pos : Nat} {verdict : Verdict}
    (d : Derivation table input goal pos verdict) : 0 < d.size := by
  cases d <;> simp only [Derivation.size] <;> omega

/-- Every rule in `active` has a derivation, at its place, of more than `bound` steps. -/
def Heavier (table : Table) (input : Input) (bound : Nat) (active : List (Nat × Nat)) : Prop :=
  ∀ index pos, (index, pos) ∈ active →
    ∃ verdict, ∃ d : Derivation table input (.rule index) pos verdict, bound < d.size

/-- **The guard does not fire on a derivation.** If `(index, pos)` were active, it would have two derivations of
    different `size`, against `Derivation.unique`. -/
theorem Heavier.not_mem {index pos : Nat} {verdict : Verdict} {active : List (Nat × Nat)}
    {d : Derivation table input (.rule index) pos verdict} (h : Heavier table input d.size active) :
    (index, pos) ∉ active := by
  intro hmem
  obtain ⟨_, e, hlt⟩ := h index pos hmem
  have hsize := (d.unique e).2
  omega

/-- Calling a rule adds a derivation larger than those of its body. -/
theorem Heavier.cons {index pos bound bound' : Nat} {verdict : Verdict} {active : List (Nat × Nat)}
    (h : Heavier table input bound active) (d : Derivation table input (.rule index) pos verdict)
    (hd : bound' < d.size) (hle : bound' ≤ bound) :
    Heavier table input bound' ((index, pos) :: active) := by
  intro i q hmem
  rcases List.mem_cons.mp hmem with heq | hmem
  · cases heq
    exact ⟨verdict, d, hd⟩
  · obtain ⟨w, e, hlt⟩ := h i q hmem
    exact ⟨w, e, Nat.lt_of_le_of_lt hle hlt⟩

/-- The verdict on a rule whose pattern has the given verdict. -/
def Verdict.wrap (name : String) (pos : Nat) : Verdict → Verdict
  | .matched stop nodes => .matched stop [.node ⟨.rule name, ⟨pos, stop⟩⟩ nodes]
  | .failed => .failed

theorem Agrees.wrap {room size : Nat} {verdict : Verdict} {result : Outcome (List MatchTree) × σ}
    (h : Agrees room size verdict result.1) (name : String) (pos : Nat) :
    Agrees (room + 1) (size + 1) (verdict.wrap name pos) (single (Match.wrap name pos result)).1 := by
  rw [single_fst, wrap_fst]
  rcases h with h | ⟨hlt, deep, h⟩
  · refine Or.inl ?_
    rw [h]
    cases verdict <;> rfl
  · exact Or.inr ⟨Nat.succ_lt_succ hlt, deep, by rw [h]; rfl⟩

/-- A rule by its body, one level down; `hcalls` comes from the induction in `rule_agrees`. -/
theorem rule_body_agrees {index pos depth : Nat} {rule : Rule} {verdict : Verdict}
    {active : List (Nat × Nat)} (hrule : engine.table.ruleAt? index = some rule)
    (hnew : (index, pos) ∉ active) (hpos : pos ≤ engine.input.size)
    (d : Derivation engine.table engine.input (.pattern rule.pattern) pos verdict)
    (hcalls : CallsAgree engine (engine.call depth ((index, pos) :: active)) depth d.size) (s : σ) :
    Agrees (depth + 1) (d.size + 1) (verdict.wrap rule.name pos)
      (single (engine.rule (depth + 1) active index pos s)).1 := by
  rw [rule_succ hrule hnew]
  exact (goal_agrees (calls_produce _ _) d _ rfl hpos hcalls _).wrap rule.name pos

theorem rule_zero_agrees {index pos size : Nat} {rule : Rule} {verdict : Verdict}
    {active : List (Nat × Nat)} (hrule : engine.table.ruleAt? index = some rule) (hsize : 0 < size)
    (s : σ) : Agrees 0 size verdict (single (engine.rule 0 active index pos s)).1 := by
  refine Or.inr ⟨hsize, pos, ?_⟩
  rw [single_fst, Engine.rule, hrule]
  rfl

/-- **`engine.rule` `Agrees` with derivations of rules.** Induction on the size `n`: the calls in the body have
    smaller derivations, and the rule itself joins the `Heavier` active ones. -/
theorem rule_agrees (n : Nat) : ∀ {index pos : Nat} {verdict : Verdict}
    (d : Derivation engine.table engine.input (.rule index) pos verdict), d.size ≤ n →
    pos ≤ engine.input.size → ∀ (depth : Nat) (active : List (Nat × Nat)),
    Heavier engine.table engine.input d.size active →
    ∀ s, Agrees depth d.size verdict (single (engine.rule depth active index pos s)).1 := by
  induction n with
  | zero =>
      intro index pos verdict d hd
      exact absurd d.size_pos (Nat.not_lt.mpr hd)
  | succ n ih =>
      intro index pos verdict d hd hpos depth active hactive s
      have hnew := hactive.not_mem
      -- calls from the body, for a body of any verdict
      have hcalls : ∀ {depth bound}, bound < d.size →
          CallsAgree engine (engine.call depth ((index, pos) :: active)) depth bound := by
        intro depth bound hbound name place w e he hplace s
        cases e with
        | refDangling hname =>
            exact Or.inl (by simp only [Engine.call, hname]; rfl)
        | ref hname e =>
            simp only [Derivation.size] at he ⊢
            simp only [Engine.call, hname]
            have hheavy : Heavier engine.table engine.input e.size ((index, pos) :: active) :=
              hactive.cons d (by omega) (by omega)
            exact (ih e (by omega) hplace depth _ hheavy s).mono (Nat.le_succ _)
      cases d with
      | ruleMissing hrule =>
          refine Or.inl ?_
          rw [single_fst]
          cases depth <;> (rw [Engine.rule, hrule]; rfl)
      | rule hrule d =>
          cases depth with
          | zero => exact rule_zero_agrees hrule (Nat.succ_pos _) s
          | succ depth => exact rule_body_agrees hrule hnew hpos d (hcalls (Nat.lt_succ_self _)) s
      | ruleFailed hrule d =>
          cases depth with
          | zero => exact rule_zero_agrees hrule (Nat.succ_pos _) s
          | succ depth => exact rule_body_agrees hrule hnew hpos d (hcalls (Nat.lt_succ_self _)) s

theorem rule_agrees_top (engine : Engine σ) {index : Nat} {verdict : Verdict}
    (d : Derivation engine.table engine.input (.rule index) 0 verdict) (depth : Nat) (s : σ) :
    Agrees depth d.size verdict (single (engine.rule depth [] index 0 s)).1 :=
  rule_agrees d.size d (Nat.le_refl _) (Nat.zero_le _) depth []
    (fun _ _ hmem => absurd hmem List.not_mem_nil) s

/-! ## Whole inputs -/

/-- The error of `result` has the kind `.recursionLimit`. -/
def LimitReached (result : Except ParseError MatchTree) : Prop :=
  ∃ error, result = .error error ∧ error.kind = .recursionLimit

/-- **`Reflects input verdict result`**: `.ok` of the derived tree if it covers the input, `.trailingInput` if it
    stops before `input.size`, `.noMatch` if the verdict is `.failed`. -/
def Reflects (input : Input) (verdict : Verdict) (result : Except ParseError MatchTree) : Prop :=
  match verdict with
  | .matched stop nodes => ∃ tree, nodes = [tree] ∧
      ((stop = input.size ∧ result = .ok tree) ∨
        (stop < input.size ∧ ∃ error, result = .error error ∧ error.kind = .trailingInput))
  | .failed => ∃ error, result = .error error ∧ error.kind = .noMatch

theorem single_eq_failed {outcome : Outcome MatchTree} {s : σ}
    (h : (single (outcome, s)).1 = .failed) : outcome = .failed := by
  cases outcome with
  | matched stop tree => cases h
  | failed => rfl
  | tooDeep deep => cases h

theorem conclude_reflects {verdict : Verdict} {result : Outcome MatchTree × Furthest}
    (hverdict : (single result).1 = verdict.outcome)
    (hstop : ∀ stop tree, result.1 = .matched stop tree → stop ≤ input.size) :
    Reflects input verdict (conclude input result) := by
  obtain ⟨outcome, furthest⟩ := result
  cases verdict with
  | failed =>
      cases single_eq_failed hverdict
      exact ⟨_, rfl, rfl⟩
  | matched stop nodes =>
      obtain ⟨tree, houtcome, rfl⟩ := Outcome.map_eq_matched hverdict
      have hle := hstop stop tree houtcome
      cases houtcome
      refine ⟨tree, rfl, ?_⟩
      by_cases hsize : stop = input.size
      · exact Or.inl ⟨hsize, by simp only [conclude, if_pos hsize]⟩
      · refine Or.inr ⟨Nat.lt_of_le_of_ne hle hsize, ?_⟩
        simp only [conclude, if_neg hsize]
        split
        · exact ⟨_, rfl, rfl⟩
        · exact ⟨_, rfl, rfl⟩

theorem conclude_limitReached {result : Outcome MatchTree × Furthest} {deep : Nat}
    (h : (single result).1 = .tooDeep deep) : LimitReached (conclude input result) := by
  obtain ⟨outcome, furthest⟩ := result
  cases outcome with
  | matched stop tree => cases h
  | failed => cases h
  | tooDeep deep => exact ⟨_, rfl, rfl⟩

theorem Reflects.not_limitReached {verdict : Verdict} {result : Except ParseError MatchTree}
    (h : Reflects input verdict result) : ¬ LimitReached result := by
  rintro ⟨limit, hresult, hkind⟩
  subst hresult
  cases verdict with
  | failed =>
      obtain ⟨error, herror, hnoMatch⟩ := h
      cases herror
      rw [hkind] at hnoMatch
      cases hnoMatch
  | matched stop nodes =>
      obtain ⟨tree, _, ⟨_, hok⟩ | ⟨_, error, herror, htrailing⟩⟩ := h
      · cases hok
      · cases herror
        rw [hkind] at htrailing
        cases htrailing

/-- **`matchInput` agrees with ordered choice.** If the start rule has a verdict at `0`, every result that is not
    `LimitReached` `Reflects` it, and from some depth on, whatever else the settings are, no result is
    `LimitReached`. -/
theorem matchInput_of_derives {table : Table} {index : Nat} {input : Input} {verdict : Verdict}
    (h : Derives table input (.rule index) 0 verdict) :
    (∀ settings : Settings, ¬ LimitReached (matchInput table index input settings) →
      Reflects input verdict (matchInput table index input settings)) ∧
    (∃ depth, ∀ settings : Settings, depth ≤ settings.maxDepth →
      ¬ LimitReached (matchInput table index input settings)) := by
  obtain ⟨d⟩ := h
  have hreflects : ∀ settings : Settings,
      Reflects input verdict (matchInput table index input settings) ∨
        (settings.maxDepth < d.size ∧ LimitReached (matchInput table index input settings)) := by
    intro settings
    rw [matchInput_eq]
    have hagrees := rule_agrees_top (reportingEngine table input settings) d settings.maxDepth {}
    rcases hagrees with heq | ⟨hlt, deep, hdeep⟩
    · refine Or.inl (conclude_reflects heq ?_)
      intro stop tree hmatched
      exact (rule_forward _ _ _ 0 _ stop tree hmatched (Nat.zero_le _)).2
    · exact Or.inr ⟨hlt, conclude_limitReached hdeep⟩
  refine ⟨fun settings hlimit => ?_, d.size, fun settings hdepth => ?_⟩
  · exact (hreflects settings).resolve_right (fun hdeep => hlimit hdeep.2)
  · rcases hreflects settings with hresult | ⟨hlt, _⟩
    · exact hresult.not_limitReached
    · exact absurd hdepth (Nat.not_le.mpr hlt)

/-- `list := item*`, `item := pair | "b"` and `pair := "a" "b"`: on `abb` the second round fails in the middle of
    `pair` and falls back on `"b"`. -/
def pairTable : Table :=
  ⟨[⟨"list", .rep (.ref "item")⟩, ⟨"item", .choice [.ref "pair", .literal "b"]⟩,
    ⟨"pair", .seq [.literal "a", .literal "b"]⟩]⟩

/-- The tree of `abb` under `pairTable`. -/
def pairTree : MatchTree :=
  .node ⟨.rule "list", ⟨0, 3⟩⟩
    [.node ⟨.rule "item", ⟨0, 2⟩⟩
      [.node ⟨.rule "pair", ⟨0, 2⟩⟩
        [.node ⟨.literal "a", ⟨0, 1⟩⟩ [], .node ⟨.literal "b", ⟨1, 2⟩⟩ []]],
     .node ⟨.rule "item", ⟨2, 3⟩⟩ [.node ⟨.literal "b", ⟨2, 3⟩⟩ []]]

theorem derives_pairTree :
    Derives pairTable (.ofString "abb") (.rule 0) 0 (.matched 3 [pairTree]) := by
  have item : pairTable.indexOf? "item" = some 1 := by decide
  have pair : pairTable.indexOf? "pair" = some 2 := by decide
  have listRule : pairTable.ruleAt? 0 = some ⟨"list", .rep (.ref "item")⟩ := rfl
  have itemRule : pairTable.ruleAt? 1 = some ⟨"item", .choice [.ref "pair", .literal "b"]⟩ := rfl
  have pairRule : pairTable.ruleAt? 2 = some ⟨"pair", .seq [.literal "a", .literal "b"]⟩ := rfl
  have a₀ : (Input.ofString "abb").matchLiteral? 0 "a" = some 1 := by decide
  have b₁ : (Input.ofString "abb").matchLiteral? 1 "b" = some 2 := by decide
  have a₂ : (Input.ofString "abb").matchLiteral? 2 "a" = none := by decide
  have b₂ : (Input.ofString "abb").matchLiteral? 2 "b" = some 3 := by decide
  have a₃ : (Input.ofString "abb").matchLiteral? 3 "a" = none := by decide
  have b₃ : (Input.ofString "abb").matchLiteral? 3 "b" = none := by decide
  -- the first round takes `pair`, the second falls back on `"b"`, the third fails
  have first := Derivation.ref item (.rule itemRule (.choiceHead (.ref pair (.rule pairRule
    (.seqCons (.literal a₀) (.seqCons (.literal b₁) .seqNil))))))
  have second := Derivation.ref item (.rule itemRule (.choiceTail (.ref pair (.ruleFailed pairRule
    (.seqHeadFailed (.literalMissed a₂)))) (.choiceHead (.literal b₂))))
  have third := Derivation.ref item (.ruleFailed itemRule (.choiceTail (.ref pair (.ruleFailed pairRule
    (.seqHeadFailed (.literalMissed a₃)))) (.choiceTail (.literalMissed b₃) .choiceNil)))
  exact ⟨.rule listRule (.repMore first (by decide) (.repMore second (by decide) (.repFailed third)))⟩

theorem matchInput_pairTree :
    Derives pairTable (.ofString "abb") (.rule 0) 0 (.matched 3 [pairTree]) ∧
      ¬ LimitReached (matchInput pairTable 0 (.ofString "abb") {}) ∧
      Reflects (.ofString "abb") (.matched 3 [pairTree])
        (matchInput pairTable 0 (.ofString "abb") {}) := by
  have hok : matchInput pairTable 0 (.ofString "abb") {} = .ok pairTree := by rfl
  have hlimit : ¬ LimitReached (matchInput pairTable 0 (.ofString "abb") {}) := by
    rintro ⟨error, herror, _⟩
    rw [hok] at herror
    cases herror
  exact ⟨derives_pairTree, hlimit, (matchInput_of_derives derives_pairTree).1 {} hlimit⟩

end PegTree.Match
