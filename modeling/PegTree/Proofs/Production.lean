import PegTree.Match.Result

/-!
# `Proofs.Production` — what a match may produce

The engine decides *which* way a pattern matches: it backtracks, cuts left recursion, counts depth and
stops repetitions. This module forgets all of that and keeps what every successful match has in common.
`Produces table input p pos stop nodes` says that `nodes` are put together along `p` from places of the
input where its literals really stand; any alternative may be taken and any number of repetitions made.

Every match the engine makes is a production (`pattern_produces`, `rule_produces`), whatever the depth,
the active rules and the noting state. Facts about all trees the engine can return are then proved by one
induction on productions, with no engine in sight. The first of them is here: a production starts no
later than it stops and stops inside the input, so every attempt moves forward (`pattern_forward`,
`rule_forward`), and a repetition never runs out of attempts (`pattern_rep`).

Later modules take the engine apart with the equations of its patterns and rules, which all say how an attempt
goes on after another one (`proceed`).
-/

namespace PegTree

/-! ## Literals in the input -/

namespace Input

theorem standsAt_le {chars : Array Char} {value : List Char} {pos : Nat} (hpos : pos ≤ chars.size)
    (h : standsAt chars pos value = true) : pos + value.length ≤ chars.size := by
  induction value generalizing pos with
  | nil => simpa using hpos
  | cons c value ih =>
      simp only [standsAt, Bool.and_eq_true, beq_iff_eq] at h
      have hlt : pos < chars.size := (Array.getElem?_eq_some_iff.mp h.1).1
      have := ih hlt h.2
      simp only [List.length_cons]
      omega

/-- `matchLiteral?` moves forward, and stays within `input.size`. -/
theorem matchLiteral?_bounds {input : Input} {pos stop : Nat} {value : String}
    (h : input.matchLiteral? pos value = some stop) : pos ≤ stop ∧ stop ≤ input.size := by
  cases input with
  | text chars =>
      simp only [matchLiteral?, Bool.and_eq_true, decide_eq_true_eq, Option.ite_none_right_eq_some,
        Option.some.injEq] at h
      obtain ⟨⟨hpos, hstands⟩, rfl⟩ := h
      exact ⟨Nat.le_add_right _ _, standsAt_le hpos hstands⟩
  | tokens items =>
      simp only [matchLiteral?, Option.ite_none_right_eq_some, Option.some.injEq] at h
      obtain ⟨hitem, rfl⟩ := h
      exact ⟨Nat.le_succ _, (Array.getElem?_eq_some_iff.mp hitem).1⟩

end Input

namespace Match

/-! ## Productions -/

/-- **`Produces table input p pos stop nodes`**: some match of `p` from `pos` to `stop` produces `nodes`. Any
    alternative of a choice may be taken, an option may be left out and a repetition may stop after any round;
    rounds have `mid ≠ pos`. -/
inductive Produces (table : Table) (input : Input) :
    Pattern → (pos stop : Nat) → List MatchTree → Prop where
  | literal {value pos stop} : input.matchLiteral? pos value = some stop →
      Produces table input (.literal value) pos stop [.node ⟨.literal value, ⟨pos, stop⟩⟩ []]
  | ref {name index rule pos stop nodes} : table.indexOf? name = some index →
      table.ruleAt? index = some rule → Produces table input rule.pattern pos stop nodes →
      Produces table input (.ref name) pos stop [.node ⟨.rule rule.name, ⟨pos, stop⟩⟩ nodes]
  | seqNil {pos} : Produces table input (.seq []) pos pos []
  | seqCons {p ps pos mid stop xs ys} : Produces table input p pos mid xs →
      Produces table input (.seq ps) mid stop ys →
      Produces table input (.seq (p :: ps)) pos stop (xs ++ ys)
  | choice {p ps pos stop nodes} : p ∈ ps → Produces table input p pos stop nodes →
      Produces table input (.choice ps) pos stop nodes
  | optNone {p pos} : Produces table input (.opt p) pos pos []
  | optSome {p pos stop nodes} : Produces table input p pos stop nodes →
      Produces table input (.opt p) pos stop nodes
  | repDone {p pos} : Produces table input (.rep p) pos pos []
  | repMore {p pos mid stop xs ys} : Produces table input p pos mid xs → mid ≠ pos →
      Produces table input (.rep p) mid stop ys → Produces table input (.rep p) pos stop (xs ++ ys)

/-- `Produces` of the pattern of the rule at `index`, under one node. -/
def RuleProduces (table : Table) (input : Input) (index pos stop : Nat) (tree : MatchTree) : Prop :=
  ∃ rule nodes, table.ruleAt? index = some rule ∧ Produces table input rule.pattern pos stop nodes
    ∧ tree = .node ⟨.rule rule.name, ⟨pos, stop⟩⟩ nodes

variable {table : Table} {input : Input}

theorem Produces.le {p : Pattern} {pos stop : Nat} {nodes : List MatchTree}
    (h : Produces table input p pos stop nodes) : pos ≤ stop := by
  induction h with
  | literal h => exact (Input.matchLiteral?_bounds h).1
  | ref _ _ _ ih => exact ih
  | seqNil => exact Nat.le_refl _
  | seqCons _ _ ih₁ ih₂ => exact Nat.le_trans ih₁ ih₂
  | choice _ _ ih => exact ih
  | optNone => exact Nat.le_refl _
  | optSome _ ih => exact ih
  | repDone => exact Nat.le_refl _
  | repMore _ _ _ ih₁ ih₂ => exact Nat.le_trans ih₁ ih₂

theorem Produces.le_size {p : Pattern} {pos stop : Nat} {nodes : List MatchTree}
    (h : Produces table input p pos stop nodes) (hpos : pos ≤ input.size) : stop ≤ input.size := by
  induction h with
  | literal h => exact (Input.matchLiteral?_bounds h).2
  | ref _ _ _ ih => exact ih hpos
  | seqNil => exact hpos
  | seqCons _ _ ih₁ ih₂ => exact ih₂ (ih₁ hpos)
  | choice _ _ ih => exact ih hpos
  | optNone => exact hpos
  | optSome _ ih => exact ih hpos
  | repDone => exact hpos
  | repMore _ _ _ ih₁ ih₂ => exact ih₂ (ih₁ hpos)

/-! ## Every match is a production -/

variable {σ α : Type}

/-- Every `.matched stop product` of `attempt` at `pos` has `P pos stop product`. -/
def Yields (attempt : Attempt σ α) (P : Nat → Nat → α → Prop) : Prop :=
  ∀ pos s stop product, (attempt pos s).1 = .matched stop product → P pos stop product

/-- `call name` yields productions of `.ref name`. -/
def CallsProduce (table : Table) (input : Input) (call : String → Attempt σ MatchTree) : Prop :=
  ∀ name, Yields (call name) fun pos stop tree => Produces table input (.ref name) pos stop [tree]

theorem Outcome.map_eq_matched {β : Type} {f : Nat → α → β} {outcome : Outcome α} {stop : Nat} {product : β}
    (h : outcome.map f = .matched stop product) :
    ∃ inner, outcome = .matched stop inner ∧ product = f stop inner := by
  cases outcome with
  | matched stop' inner =>
      simp only [Outcome.map, Outcome.matched.injEq] at h
      obtain ⟨rfl, rfl⟩ := h
      exact ⟨inner, rfl, rfl⟩
  | failed => simp [Outcome.map] at h
  | tooDeep deep => simp [Outcome.map] at h

theorem single_fst (result : Outcome MatchTree × σ) :
    (single result).1 = result.1.map fun _ tree => [tree] := rfl

theorem after_fst (nodes : List MatchTree) (result : Outcome (List MatchTree) × σ) :
    (after nodes result).1 = result.1.map fun _ more => nodes ++ more := rfl

theorem wrap_fst (name : String) (pos : Nat) (result : Outcome (List MatchTree) × σ) :
    (wrap name pos result).1
      = result.1.map fun stop nodes => .node ⟨.rule name, ⟨pos, stop⟩⟩ nodes := rfl

/-- `greedy` out of `fuel` stops as a production of `.rep p` may, so `fuel` is of no account here. -/
theorem greedy_produces {attempt : Attempt σ (List MatchTree)} {p : Pattern}
    (hp : Yields attempt (Produces table input p)) (fuel : Nat) :
    Yields (greedy attempt fuel) (Produces table input (.rep p)) := by
  induction fuel with
  | zero =>
      intro pos s stop nodes h
      simp only [greedy, Outcome.matched.injEq] at h
      obtain ⟨rfl, rfl⟩ := h
      exact .repDone
  | succ fuel ih =>
      intro pos s stop nodes h
      rcases hround : attempt pos s with ⟨⟨mid, xs⟩ | _ | _, s'⟩
      · have hxs := hp pos s mid xs (by rw [hround])
        simp only [greedy, hround] at h
        by_cases hmid : mid = pos
        · simp only [hmid, if_true, Outcome.matched.injEq] at h
          obtain ⟨rfl, rfl⟩ := h
          exact .repDone
        · rw [if_neg hmid] at h
          obtain ⟨ys, hys, rfl⟩ := Outcome.map_eq_matched h
          exact .repMore hxs hmid (ih mid s' stop ys hys)
      · simp only [greedy, hround, Outcome.matched.injEq] at h
        obtain ⟨rfl, rfl⟩ := h
        exact .repDone
      · simp [greedy, hround] at h

theorem sequence_produces {engine : Engine σ} {call : String → Attempt σ MatchTree}
    {ps : List Pattern}
    (hps : ∀ p ∈ ps, Yields (engine.pattern call p) (Produces table input p)) :
    Yields (engine.sequence call ps) (Produces table input (.seq ps)) := by
  induction ps with
  | nil =>
      intro pos s stop nodes h
      simp only [Engine.sequence, Outcome.matched.injEq] at h
      obtain ⟨rfl, rfl⟩ := h
      exact .seqNil
  | cons p ps ih =>
      intro pos s stop nodes h
      have htail := ih (fun q hq => hps q (List.mem_cons_of_mem _ hq))
      rcases hhead : engine.pattern call p pos s with ⟨⟨mid, xs⟩ | _ | _, s'⟩
      · simp only [Engine.sequence, hhead] at h
        obtain ⟨ys, hys, rfl⟩ := Outcome.map_eq_matched h
        exact .seqCons (hps p List.mem_cons_self pos s mid xs (by rw [hhead])) (htail mid s' stop ys hys)
      · simp [Engine.sequence, hhead] at h
      · simp [Engine.sequence, hhead] at h

theorem choice_produces {engine : Engine σ} {call : String → Attempt σ MatchTree}
    {ps : List Pattern}
    (hps : ∀ p ∈ ps, Yields (engine.pattern call p) (Produces table input p)) :
    Yields (engine.choice call ps) (Produces table input (.choice ps)) := by
  induction ps with
  | nil =>
      intro pos s stop nodes h
      simp [Engine.choice] at h
  | cons p ps ih =>
      intro pos s stop nodes h
      have htail := ih (fun q hq => hps q (List.mem_cons_of_mem _ hq))
      rcases hhead : engine.pattern call p pos s with ⟨⟨mid, xs⟩ | _ | _, s'⟩
      · simp only [Engine.choice, hhead, Outcome.matched.injEq] at h
        obtain ⟨rfl, rfl⟩ := h
        exact .choice List.mem_cons_self (hps p List.mem_cons_self pos s _ _ (by rw [hhead]))
      · simp only [Engine.choice, hhead] at h
        cases htail pos s' stop nodes h with
        | choice hmem hq => exact .choice (List.mem_cons_of_mem _ hmem) hq
      · simp [Engine.choice, hhead] at h

/-- **Every match of `engine.pattern call p` is a `Produces`**, if `call` yields productions. -/
theorem pattern_produces {engine : Engine σ} {call : String → Attempt σ MatchTree}
    (hcall : CallsProduce engine.table engine.input call) (p : Pattern) :
    Yields (engine.pattern call p) (Produces engine.table engine.input p) := by
  induction p using Pattern.inductionOn with
  | literal value =>
      intro pos s stop nodes h
      obtain ⟨tree, htree, rfl⟩ := Outcome.map_eq_matched h
      cases hmatch : engine.input.matchLiteral? pos value with
      | some stop' =>
          simp only [hmatch, Outcome.matched.injEq] at htree
          obtain ⟨rfl, rfl⟩ := htree
          exact .literal hmatch
      | none => simp [hmatch] at htree
  | ref name =>
      intro pos s stop nodes h
      obtain ⟨tree, htree, rfl⟩ := Outcome.map_eq_matched h
      exact hcall name pos s stop tree htree
  | seq ps ih => exact sequence_produces ih
  | choice ps ih => exact choice_produces ih
  | opt p ih =>
      intro pos s stop nodes h
      rcases hbody : engine.pattern call p pos s with ⟨⟨mid, xs⟩ | _ | _, s'⟩
      · simp only [Engine.pattern, hbody, Outcome.matched.injEq] at h
        obtain ⟨rfl, rfl⟩ := h
        exact .optSome (ih pos s _ _ (by rw [hbody]))
      · simp only [Engine.pattern, hbody, Outcome.matched.injEq] at h
        obtain ⟨rfl, rfl⟩ := h
        exact .optNone
      · simp [Engine.pattern, hbody] at h
  | rep p ih =>
      intro pos s stop nodes h
      exact greedy_produces ih _ pos s stop nodes h

/-- The `call` that `Engine.rule` builds for the pattern of a rule: `indexOf?`, then the rule one level down. -/
def Engine.call (engine : Engine σ) (depth : Nat) (active : List (Nat × Nat)) (name : String) :
    Attempt σ MatchTree := fun place s =>
  match engine.table.indexOf? name with
  | none => (.failed, engine.note s (.dangling name place))
  | some next => engine.rule depth active next place s

theorem call_produces {engine : Engine σ} {depth : Nat} {active : List (Nat × Nat)}
    (hrule : ∀ index, Yields (engine.rule depth active index)
      (RuleProduces engine.table engine.input index)) :
    CallsProduce engine.table engine.input (engine.call depth active) := by
  intro name pos s stop tree h
  cases hindex : engine.table.indexOf? name with
  | none => simp [Engine.call, hindex] at h
  | some index =>
      simp only [Engine.call, hindex] at h
      obtain ⟨rule, nodes, hat, hnodes, rfl⟩ := hrule index pos s stop tree h
      exact .ref hindex hat hnodes

/-- `Engine.rule` of a rule that is not `active` at `pos`, in terms of `Engine.call`. -/
theorem rule_succ {engine : Engine σ} {depth index pos : Nat} {active : List (Nat × Nat)} {rule : Rule}
    {s : σ} (hrule : engine.table.ruleAt? index = some rule) (hnew : (index, pos) ∉ active) :
    engine.rule (depth + 1) active index pos s
      = wrap rule.name pos (engine.pattern (engine.call depth ((index, pos) :: active)) rule.pattern pos
          (engine.note s (.called index pos active.length))) := by
  have hcontains : active.contains (index, pos) = false := by simpa using hnew
  unfold Engine.rule
  simp only [hrule, hcontains, Bool.false_eq_true, if_false]
  rfl

/-- **Every match of `engine.rule` is a `RuleProduces`.** Induction on `depth`. -/
theorem rule_produces {engine : Engine σ} (depth : Nat) (active : List (Nat × Nat)) (index : Nat) :
    Yields (engine.rule depth active index) (RuleProduces engine.table engine.input index) := by
  induction depth generalizing active index with
  | zero =>
      intro pos s stop tree h
      unfold Engine.rule at h
      cases hrule : engine.table.ruleAt? index <;> simp [hrule] at h
  | succ depth ih =>
      intro pos s stop tree h
      cases hrule : engine.table.ruleAt? index with
      | none => simp [Engine.rule, hrule] at h
      | some rule =>
          by_cases hactive : (index, pos) ∈ active
          · simp [Engine.rule, hrule, hactive] at h
          · rw [rule_succ hrule hactive] at h
            obtain ⟨nodes, hnodes, rfl⟩ := Outcome.map_eq_matched h
            refine ⟨rule, nodes, hrule, ?_, rfl⟩
            have hcall := call_produces (fun next => ih ((index, pos) :: active) next)
            exact pattern_produces hcall rule.pattern pos _ stop nodes hnodes

theorem calls_produce {engine : Engine σ} (depth : Nat) (active : List (Nat × Nat)) :
    CallsProduce engine.table engine.input (engine.call depth active) :=
  call_produces (fun index => rule_produces depth active index)

/-! ## Moving forward -/

/-- Matches from inside the input stop inside it, and not before `pos`. -/
def Forward (input : Input) (attempt : Attempt σ α) : Prop :=
  Yields attempt fun pos stop _ => pos ≤ input.size → pos ≤ stop ∧ stop ≤ input.size

theorem pattern_forward {engine : Engine σ} {call : String → Attempt σ MatchTree}
    (hcall : CallsProduce engine.table engine.input call) (p : Pattern) :
    Forward engine.input (engine.pattern call p) := by
  intro pos s stop nodes h hpos
  have hp := pattern_produces hcall p pos s stop nodes h
  exact ⟨hp.le, hp.le_size hpos⟩

theorem rule_forward {engine : Engine σ} (depth : Nat) (active : List (Nat × Nat)) (index : Nat) :
    Forward engine.input (engine.rule depth active index) := by
  intro pos s stop tree h hpos
  obtain ⟨_, _, _, hp, _⟩ := rule_produces depth active index pos s stop tree h
  exact ⟨hp.le, hp.le_size hpos⟩

/-- `greedy` is constant in `fuel` above `input.size - pos`, since every round but the last takes a unit. -/
theorem greedy_fuel {attempt : Attempt σ (List MatchTree)} (hforward : Forward input attempt)
    {fuel fuel' pos : Nat} (hpos : pos ≤ input.size) (hfuel : input.size - pos < fuel)
    (hfuel' : input.size - pos < fuel') (s : σ) :
    greedy attempt fuel pos s = greedy attempt fuel' pos s := by
  induction fuel generalizing fuel' pos s with
  | zero => exact absurd hfuel (Nat.not_lt_zero _)
  | succ fuel ih =>
      cases fuel' with
      | zero => exact absurd hfuel' (Nat.not_lt_zero _)
      | succ fuel' =>
          rcases hround : attempt pos s with ⟨⟨mid, xs⟩ | _ | _, s'⟩
          · simp only [greedy, hround]
            by_cases hmid : mid = pos
            · simp only [hmid, if_true]
            · obtain ⟨hle, hsize⟩ := hforward pos s mid xs (by rw [hround]) hpos
              rw [if_neg hmid, if_neg hmid]
              exact congrArg (after xs) (ih hsize (by omega) (by omega) s')
          · simp only [greedy, hround]
          · simp only [greedy, hround]

/-- **`.rep p` unfolded once**: a round that moves is followed by `.rep p` from its end. The `fuel` of `greedy` is
    gone, by `greedy_fuel`. -/
theorem pattern_rep {engine : Engine σ} {call : String → Attempt σ MatchTree}
    (hcall : CallsProduce engine.table engine.input call) (p : Pattern) {pos : Nat}
    (hpos : pos ≤ engine.input.size) (s : σ) :
    engine.pattern call (.rep p) pos s
      = match engine.pattern call p pos s with
        | (.matched stop nodes, s) =>
          if stop = pos then (.matched pos [], s)
          else after nodes (engine.pattern call (.rep p) stop s)
        | (.failed, s) => (.matched pos [], s)
        | (.tooDeep deep, s) => (.tooDeep deep, s) := by
  have hforward := pattern_forward hcall p
  have hrep : ∀ q s, engine.pattern call (.rep p) q s
      = greedy (engine.pattern call p) (engine.input.size - q + 1) q s := fun _ _ => rfl
  rcases hround : engine.pattern call p pos s with ⟨⟨mid, xs⟩ | _ | _, s'⟩
  · simp only [hrep]
    rw [greedy]
    simp only [hround]
    by_cases hmid : mid = pos
    · simp only [hmid, if_true]
    · obtain ⟨hle, hsize⟩ := hforward pos s mid xs (by rw [hround]) hpos
      rw [if_neg hmid, if_neg hmid]
      exact congrArg (after xs) (greedy_fuel hforward hsize (by omega) (by omega) s')
  · simp only [hrep, greedy, hround]
  · simp only [hrep, greedy, hround]

/-! ## Going on after an attempt -/

/-- What follows an attempt: `onMatch` after `.matched`, `onFailure` after `.failed`, and nothing after
    `.tooDeep`. -/
def proceed {β : Type} (onMatch : Nat → α → σ → Outcome β × σ) (onFailure : σ → Outcome β × σ) :
    Outcome α × σ → Outcome β × σ
  | (.matched stop product, s) => onMatch stop product s
  | (.failed, s) => onFailure s
  | (.tooDeep deep, s) => (.tooDeep deep, s)

section Unfold

variable (engine : Engine σ) (call : String → Attempt σ MatchTree) (p : Pattern) (ps : List Pattern)
  (pos : Nat) (s : σ)

theorem sequence_cons : engine.sequence call (p :: ps) pos s
    = proceed (fun stop nodes s => after nodes (engine.sequence call ps stop s)) (fun s => (.failed, s))
        (engine.pattern call p pos s) := by
  rcases hhead : engine.pattern call p pos s with ⟨_ | _ | _, s'⟩ <;>
    simp only [Engine.sequence, hhead, proceed]

theorem choice_cons : engine.choice call (p :: ps) pos s
    = proceed (fun stop nodes s => (.matched stop nodes, s)) (engine.choice call ps pos)
        (engine.pattern call p pos s) := by
  rcases hhead : engine.pattern call p pos s with ⟨_ | _ | _, s'⟩ <;>
    simp only [Engine.choice, hhead, proceed]

theorem pattern_opt : engine.pattern call (.opt p) pos s
    = proceed (fun stop nodes s => (.matched stop nodes, s)) (fun s => (.matched pos [], s))
        (engine.pattern call p pos s) := by
  rcases hbody : engine.pattern call p pos s with ⟨_ | _ | _, s'⟩ <;>
    simp only [Engine.pattern, hbody, proceed]

theorem greedy_succ (attempt : Attempt σ (List MatchTree)) (fuel : Nat) :
    greedy attempt (fuel + 1) pos s
      = proceed (fun stop nodes s =>
            if stop = pos then (.matched pos [], s) else after nodes (greedy attempt fuel stop s))
          (fun s => (.matched pos [], s)) (attempt pos s) := by
  rcases hround : attempt pos s with ⟨_ | _ | _, s'⟩ <;> simp only [greedy, hround, proceed]

variable {engine call}

theorem pattern_rep_eq (hcall : CallsProduce engine.table engine.input call)
    (hpos : pos ≤ engine.input.size) : engine.pattern call (.rep p) pos s
      = proceed (fun stop nodes s =>
            if stop = pos then (.matched pos [], s) else after nodes (engine.pattern call (.rep p) stop s))
          (fun s => (.matched pos [], s)) (engine.pattern call p pos s) := by
  rw [pattern_rep hcall p hpos]
  rcases engine.pattern call p pos s with ⟨_ | _ | _, s'⟩ <;> rfl

variable {depth index : Nat} {active : List (Nat × Nat)} {rule : Rule}

theorem rule_missing (hrule : engine.table.ruleAt? index = none) :
    engine.rule depth active index pos s = (.failed, s) := by
  cases depth <;> simp only [Engine.rule, hrule]

theorem rule_zero (hrule : engine.table.ruleAt? index = some rule) :
    engine.rule 0 active index pos s
      = (.tooDeep pos, engine.note s (.called index pos active.length)) := by
  simp only [Engine.rule, hrule]

theorem rule_active (hrule : engine.table.ruleAt? index = some rule) (hactive : (index, pos) ∈ active) :
    engine.rule (depth + 1) active index pos s
      = (.failed, engine.note s (.called index pos active.length)) := by
  simp only [Engine.rule, hrule, List.contains_iff_mem.mpr hactive, if_true]

end Unfold

/-! ## Whole inputs -/

/-- The engine of `matchInput`, which notes with `Furthest.note`. -/
def reportingEngine (table : Table) (input : Input) (settings : Settings) : Engine Furthest :=
  ⟨table, input, Furthest.note settings.maxExpected⟩

theorem matchInput_eq (table : Table) (index : Nat) (input : Input) (settings : Settings) :
    matchInput table index input settings
      = conclude input ((reportingEngine table input settings).rule settings.maxDepth [] index 0 {}) :=
  rfl

theorem conclude_eq_ok {result : Outcome MatchTree × Furthest} {tree : MatchTree}
    (h : conclude input result = .ok tree) : result.1 = .matched input.size tree := by
  obtain ⟨⟨stop, found⟩ | _ | _, furthest⟩ := result
  · by_cases hstop : stop = input.size
    · simp only [conclude, if_pos hstop, Except.ok.injEq] at h
      rw [h, hstop]
    · simp only [conclude, if_neg hstop] at h
      split at h <;> cases h
  · cases h
  · cases h

/-- **`.ok tree` from `matchInput` is a `RuleProduces` from `0` to `input.size`.** -/
theorem matchInput_produces {index : Nat} {settings : Settings} {tree : MatchTree}
    (h : matchInput table index input settings = .ok tree) :
    RuleProduces table input index 0 input.size tree := by
  rw [matchInput_eq] at h
  exact rule_produces _ _ _ _ _ _ _ (conclude_eq_ok h)

end Match

end PegTree
