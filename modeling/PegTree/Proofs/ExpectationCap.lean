import PegTree.Proofs.Diagnostics

/-!
# `Proofs.ExpectationCap` — what the limit on expectations can change

The greatest number of expectations is a matter of how an error is worded: two matches that differ in nothing
else take the same steps and miss the same literals, so they should differ only in how many of them they
list. `Shortened` says this of two results.

* **The steps never depend on the limit.** The record of a match is the same under all limits, and the list
  that an error is drawn from is cut only at the end (`summary_expected_isPrefix`).
* **One thing does depend on it** (`conclude_blaming`, `conclude_ending`). Whether trailing input is blamed on
  a missed literal is told by the list not being empty, and under the limit zero every list is.

So the limit only shortens the list, unless it is zero and there is a miss to blame (`matchInput_capped`).
-/

namespace PegTree

/-- **`short.Shortens long`**: equal fields, but for `short.expected <+: long.expected`. -/
structure ParseError.Shortens (short long : ParseError) : Prop where
  kind : short.kind = long.kind
  position : short.position = long.position
  location : short.location = long.location
  found : short.found = long.found
  expected : short.expected <+: long.expected

namespace Match

open Text

/-- **`Shortens` on results**; accepted trees are equal. -/
inductive Shortened : Except ParseError MatchTree → Except ParseError MatchTree → Prop where
  | accepted (tree : MatchTree) : Shortened (.ok tree) (.ok tree)
  | refused {short long : ParseError} : short.Shortens long → Shortened (.error short) (.error long)

theorem Shortened.refl (result : Except ParseError MatchTree) : Shortened result result := by
  cases result with
  | ok tree => exact .accepted tree
  | error error => exact .refused ⟨rfl, rfl, rfl, rfl, List.prefix_refl _⟩

variable {input : Input} {missed : List (Nat × String)} {stop small large : Nat} {tree : MatchTree}

theorem shortened_errorAt (input : Input) (kind : ParseError.Kind) (pos : Nat) {short long : List String}
    (h : short <+: long) :
    Shortened (.error (errorAt input kind pos short)) (.error (errorAt input kind pos long)) :=
  .refused ⟨rfl, rfl, rfl, rfl, h⟩

/-! ## Summaries under two limits -/

/-- `summary` under a smaller limit has a prefix of the list. -/
theorem summary_expected_isPrefix (hle : small ≤ large) (missed : List (Nat × String)) :
    (summary small missed).expected <+: (summary large missed).expected :=
  List.take_prefix_take_left hle

/-! ## Trailing input under a limit -/

/-- For `1 ≤ limit`, `conclude` blames the misses at `stop` or further on. -/
theorem conclude_blaming {limit : Nat} (hlimit : 1 ≤ limit) (hstop : stop ≠ input.size)
    (hmiss : ∃ miss ∈ missed, stop ≤ miss.1) :
    conclude input (.matched stop tree, summary limit missed)
      = .error (errorAt input .trailingInput (furthestOf missed) (summary limit missed).expected) := by
  have hblamed := (reports_missed_iff hlimit).mpr hmiss
  simp only [conclude, if_neg hstop]
  rw [if_pos hblamed]
  rfl

/-- With no such miss, or with `limit = 0`, `conclude` reports `"end of input"` at `stop`. -/
theorem conclude_ending {limit : Nat} (hstop : stop ≠ input.size)
    (hnone : limit = 0 ∨ ¬ ∃ miss ∈ missed, stop ≤ miss.1) :
    conclude input (.matched stop tree, summary limit missed)
      = .error (errorAt input .trailingInput stop ["end of input"]) := by
  have hended : ¬ (stop ≤ (summary limit missed).position && !(summary limit missed).expected.isEmpty)
      = true := by
    by_cases hzero : limit = 0
    · -- nothing is listed, so there seems to be nothing to blame
      subst hzero
      simp [summary]
    · have hnone : ¬ ∃ miss ∈ missed, stop ≤ miss.1 := hnone.resolve_left hzero
      have hlimit : 1 ≤ limit := Nat.pos_of_ne_zero hzero
      exact mt (reports_missed_iff hlimit).mp hnone
  simp only [conclude, if_neg hstop]
  rw [if_neg hended]

/-- `quoted` starts with `'"'`. -/
theorem quoted_ne_endOfInput (literal : String) : quoted literal ≠ "end of input" := by
  intro heq
  have hchars := congrArg String.toList heq
  rw [quoted, String.toList_ofList, quotedChars] at hchars
  have hhead := congrArg List.head? hchars
  have hshown : "end of input".toList.head? = some 'e' := by decide
  rw [hshown] at hhead
  cases hhead

theorem not_endOfInput_isPrefix (limit : Nat) (missed : List (Nat × String)) :
    ¬ ["end of input"] <+: (summary limit missed).expected := by
  intro hbegins
  have hlisted : "end of input" ∈ missedAt (furthestOf missed) missed :=
    List.mem_of_mem_take (hbegins.subset (List.mem_singleton_self _))
  rw [missedAt, List.mem_eraseDups] at hlisted
  obtain ⟨miss, _, hquoted⟩ := List.mem_map.mp hlisted
  exact quoted_ne_endOfInput miss.2 hquoted

/-! ## Two limits -/

/-- **`Explained input run`**: `run` matches up to `stop ≠ input.size`, with a miss at `stop` or further on. -/
def Explained (input : Input) (run : Outcome MatchTree × List Event) : Prop :=
  ∃ stop tree, run.1 = .matched stop tree ∧ stop ≠ input.size ∧ ∃ miss ∈ misses run.2, stop ≤ miss.1

theorem explained_matched_iff {es : List Event} :
    Explained input (.matched stop tree, es) ↔ stop ≠ input.size ∧ ∃ miss ∈ misses es, stop ≤ miss.1 := by
  constructor
  · rintro ⟨stop', tree', houtcome, hstop, hmiss⟩
    cases houtcome
    exact ⟨hstop, hmiss⟩
  · rintro ⟨hstop, hmiss⟩
    exact ⟨stop, tree, rfl, hstop, hmiss⟩

/-- `conclude_blaming` under two limits. -/
theorem conclude_blaming_shortened_iff (hle : small ≤ large) (hstop : stop ≠ input.size)
    (hmiss : ∃ miss ∈ missed, stop ≤ miss.1) :
    Shortened (conclude input (.matched stop tree, summary small missed))
        (conclude input (.matched stop tree, summary large missed))
      ↔ ¬ (small = 0 ∧ 0 < large) := by
  by_cases hsmall : small = 0
  · by_cases hlarge : large = 0
    · rw [hsmall, hlarge]
      exact iff_of_true (Shortened.refl _) fun h => absurd h.2 (Nat.lt_irrefl 0)
    · -- the smaller limit hides the miss, the larger one shows it
      have hpos : 0 < large := Nat.pos_of_ne_zero hlarge
      refine iff_of_false ?_ (not_not_intro ⟨hsmall, hpos⟩)
      rw [conclude_ending hstop (.inl hsmall), conclude_blaming hpos hstop hmiss]
      rintro (_ | hshortens)
      exact not_endOfInput_isPrefix large missed hshortens.expected
  · have hpos : 0 < small := Nat.pos_of_ne_zero hsmall
    refine iff_of_true ?_ fun h => hsmall h.1
    rw [conclude_blaming hpos hstop hmiss, conclude_blaming (Nat.le_trans hpos hle) hstop hmiss]
    exact shortened_errorAt input _ _ (summary_expected_isPrefix hle missed)

/-- **`conclude` under two limits**, by the cases of `run`: `Shortened` fails exactly where `small = 0 < large` and
    the run is `Explained`. -/
theorem conclude_shortened_iff (hle : small ≤ large) (run : Outcome MatchTree × List Event) :
    Shortened (conclude input (run.1, summary small (misses run.2)))
        (conclude input (run.1, summary large (misses run.2)))
      ↔ ¬ (small = 0 ∧ 0 < large ∧ Explained input run) := by
  obtain ⟨outcome, es⟩ := run
  cases outcome with
  | tooDeep deep =>
      refine iff_of_true (Shortened.refl _) ?_
      rintro ⟨_, _, _, _, houtcome, _⟩
      cases houtcome
  | failed =>
      refine iff_of_true (shortened_errorAt input _ _ (summary_expected_isPrefix hle _)) ?_
      rintro ⟨_, _, _, _, houtcome, _⟩
      cases houtcome
  | matched stop tree =>
      rw [explained_matched_iff]
      by_cases hstop : stop = input.size
      · -- the whole input is accepted, whatever was missed on the way
        refine iff_of_true ?_ fun h => h.2.2.1 hstop
        simp only [conclude, if_pos hstop]
        exact .accepted tree
      · by_cases hmiss : ∃ miss ∈ misses es, stop ≤ miss.1
        · rw [conclude_blaming_shortened_iff hle hstop hmiss]
          simp only [hstop, hmiss, ne_eq, not_false_eq_true, and_true]
        · -- there is nothing to blame, so there is nothing to hide
          refine iff_of_true ?_ fun h => hmiss h.2.2.2
          rw [conclude_ending hstop (.inr hmiss), conclude_ending hstop (.inr hmiss)]
          exact Shortened.refl _

/-- **`maxExpected` only shortens `expected`**, but for `0`. For `small ≤ large`, the results under the two limits
    are `Shortened` iff it is not the case that `small = 0 < large` and the run is `Explained`: there the error is
    about another place, or expects something else. -/
theorem matchInput_capped (table : Table) (index : Nat) (input : Input) (settings : Settings)
    (hle : small ≤ large) :
    Shortened (matchInput table index input { settings with maxExpected := small })
        (matchInput table index input { settings with maxExpected := large })
      ↔ ¬ (small = 0 ∧ 0 < large ∧ Explained input (record table index input settings)) := by
  rw [matchInput_eq_conclude, matchInput_eq_conclude]
  -- the record is made without a look at the limit
  exact conclude_shortened_iff hle (record table index input settings)

/-- `root := "a" ("b" "c")?` on `abx`: the match ends behind `a`, and `"c"` was missed behind `b`. -/
def tailTable : Table :=
  ⟨[⟨"root", .seq [.literal "a", .opt (.seq [.literal "b", .literal "c"])]⟩]⟩

theorem matchInput_capped_tailTable :
    let input := Input.ofString "abx"
    (1 : Nat) ≤ 8 ∧
    matchInput tailTable 0 input { maxExpected := 1 } = .error (errorAt input .trailingInput 2 ["\"c\""]) ∧
    Shortened (matchInput tailTable 0 input { maxExpected := 1 })
      (matchInput tailTable 0 input { maxExpected := 8 }) := by
  intro input
  have hle : (1 : Nat) ≤ 8 := by decide
  refine ⟨hle, by rfl, ?_⟩
  exact (matchInput_capped tailTable 0 input {} hle).mpr fun h => absurd h.1 (by decide)

/-- Under the limit `0` the error is one unit earlier, and expects what no larger limit lists. -/
theorem matchInput_capped_zero :
    let input := Input.ofString "abx"
    matchInput tailTable 0 input { maxExpected := 0 }
      = .error (errorAt input .trailingInput 1 ["end of input"]) ∧
    matchInput tailTable 0 input { maxExpected := 8 } = .error (errorAt input .trailingInput 2 ["\"c\""]) ∧
    ¬ Shortened (matchInput tailTable 0 input { maxExpected := 0 })
      (matchInput tailTable 0 input { maxExpected := 8 }) := by
  intro input
  have hzero : matchInput tailTable 0 input { maxExpected := 0 }
      = .error (errorAt input .trailingInput 1 ["end of input"]) := by rfl
  have hlarge : matchInput tailTable 0 input { maxExpected := 8 }
      = .error (errorAt input .trailingInput 2 ["\"c\""]) := by rfl
  refine ⟨hzero, hlarge, ?_⟩
  rw [hzero, hlarge]
  rintro (_ | hshortens)
  exact absurd hshortens.position (by decide)

end Match

end PegTree
