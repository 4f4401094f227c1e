import PegTree.Proofs.ByteUnits
import PegTree.Proofs.Persistence

/-!
# `Proofs.Anchoring` — errors are about places of the input

An error carries a place, the unit that stands there, and a line and a column. All three are looked up after the
match, with whatever place the matcher came to, so they are right only if no matcher leaves the input: not at its
end, where empty literals still match, and not behind the limit, where it carries on after the result is settled.

* **No place that is passed on lies outside the input** (`Walker.run_inside`), and every place inside can be looked up
  in the bytes of a text (`holds_of_le`).
* **Every error is about one of three places** (`conclude_error_cases`), which are all places of that walk.
* **What is looked up is what stands there** (`unit?_eq_units`, `location?_eq_counted?`).
-/

namespace PegTree

open Text

/-! ## Looking places up -/

namespace Input

/-- **`pos` can be looked up in the input.** For a text, `ByteText.offsets[pos]?` is an offset at which the bytes
    may be cut (`String.Pos.Raw.IsValid`); for tokens, `pos ≤ items.size`. -/
def Holds : Input → Nat → Prop
  | .text chars, pos =>
    let source := String.ofList chars.toList
    ∃ offset, (ByteText.ofString source).offsets[pos]? = some offset ∧ String.Pos.Raw.IsValid source ⟨offset⟩
  | .tokens items, pos => pos ≤ items.size

theorem holds_of_le {input : Input} {pos : Nat} (h : pos ≤ input.size) : input.Holds pos := by
  cases input with
  | text chars =>
      have hlength : pos ≤ (String.ofList chars.toList).toList.length := by
        rw [String.toList_ofList, Array.length_toList]
        exact h
      exact ⟨_, ByteText.offsets_ofString _ hlength, isValid_iff.mpr ⟨_, List.take_prefix _ _, rfl⟩⟩
  | tokens items => exact h

theorem unit?_eq_units (input : Input) (pos : Nat) : input.unit? pos = input.units[pos]? := by
  cases input with
  | text chars => simp [unit?, units]
  | tokens items => simp [unit?, units]

/-- `Position.after` of the first `pos` units of a text, and nothing for tokens. -/
def counted? : Input → Nat → Option Position
  | .text chars, pos => some (Position.after (chars.toList.take pos))
  | .tokens _, _ => none

theorem location?_eq_counted? (input : Input) (pos : Nat) : input.location? pos = input.counted? pos := by
  cases input with
  | text chars =>
      have hposition := LineIndex.position_append (chars.toList.take pos) (chars.toList.drop pos)
      rw [List.take_append_drop] at hposition
      exact congrArg some hposition
  | tokens items => rfl

end Input

/-! ## Anchored errors -/

/-- **The error is anchored in the input**: `position ≤ input.size`, `found` is the unit at `position` and `none`
    exactly at `input.size`, and `location` is counted from the units before `position`. -/
structure ParseError.Anchored (input : Input) (error : ParseError) : Prop where
  kind : error.kind = .noMatch ∨ error.kind = .trailingInput ∨ error.kind = .recursionLimit
  position_le : error.position ≤ input.size
  found_eq : error.found = input.units[error.position]?
  found_eq_none_iff : error.found = none ↔ error.position = input.size
  location_eq : error.location = input.counted? error.position

namespace Match

theorem errorAt_anchored {input : Input} {kind : ParseError.Kind} {pos : Nat} (expected : List String)
    (hkind : kind = .noMatch ∨ kind = .trailingInput ∨ kind = .recursionLimit) (hpos : pos ≤ input.size) :
    (errorAt input kind pos expected).Anchored input where
  kind := hkind
  position_le := hpos
  found_eq := Input.unit?_eq_units input pos
  found_eq_none_iff := by
    show input.unit? pos = none ↔ pos = input.size
    rw [Input.unit?_eq_units, List.getElem?_eq_none_iff, Input.length_units]
    omega
  location_eq := Input.location?_eq_counted? input pos

/-- Every error of `conclude` is `errorAt` of one of three places: the call in `.tooDeep`, `furthest.position`, or
    the `stop` of a match. -/
theorem conclude_error_cases {input : Input} {outcome : Outcome MatchTree} {furthest : Furthest} {error : ParseError}
    (h : conclude input (outcome, furthest) = .error error) :
    (∃ deep, outcome = .tooDeep deep ∧ error = errorAt input .recursionLimit deep []) ∨
    (∃ kind, (kind = .noMatch ∨ kind = .trailingInput) ∧
      error = errorAt input kind furthest.position furthest.expected) ∨
    ∃ stop tree, outcome = .matched stop tree ∧ error = errorAt input .trailingInput stop ["end of input"] := by
  cases outcome with
  | tooDeep deep =>
      cases h
      exact .inl ⟨deep, rfl, rfl⟩
  | failed =>
      cases h
      exact .inr (.inl ⟨_, .inl rfl, rfl⟩)
  | matched stop tree =>
      simp only [conclude] at h
      split at h
      · cases h
      · split at h
        · cases h
          exact .inr (.inl ⟨_, .inr rfl, rfl⟩)
        · cases h
          exact .inr (.inr ⟨stop, tree, rfl, rfl⟩)

theorem outcomeOf_eq_tooDeep {α : Type} {walked : Walked α} {deep : Nat} (h : outcomeOf walked = .tooDeep deep) :
    walked.2.limit = some deep := by
  unfold outcomeOf at h
  split at h
  · next hlimit =>
      cases h
      exact hlimit
  · cases h
  · cases h

theorem outcomeOf_eq_matched {α : Type} {walked : Walked α} {stop : Nat} {product : α}
    (h : outcomeOf walked = .matched stop product) : walked.1 = some (stop, product) := by
  unfold outcomeOf at h
  split at h
  · cases h
  · next hfound =>
      cases h
      exact hfound
  · cases h

theorem Walker.run_inside (walker : Walker) (index : Nat) : Ends walker.input 0 {} (walker.run index) :=
  (walker.run_follows index).toEnds

theorem Ends.anchored {input : Input} {pos : Nat} {trail : Trail} {walked : Walked MatchTree} {error : ParseError}
    (h : Ends input pos trail walked)
    (herror : conclude input (outcomeOf walked, walked.2.furthest) = .error error) : error.Anchored input := by
  rcases conclude_error_cases herror with ⟨deep, hdeep, rfl⟩ | ⟨kind, hkind, rfl⟩ | ⟨stop, tree, hmatched, rfl⟩
  · exact errorAt_anchored _ (.inr (.inr rfl)) (h.inside.limit deep (outcomeOf_eq_tooDeep hdeep))
  · exact errorAt_anchored _ (hkind.imp_right .inl) h.inside.furthest
  · exact errorAt_anchored _ (.inr (.inl rfl)) (h.stop stop tree (outcomeOf_eq_matched hmatched)).2

/-- **Errors are anchored inside the input**, for every table, index, input and settings: the result is `conclude`
    of `Walker.run`, every cursor this walk logs satisfies `cursor ≤ input.size` and `Holds`, and every error is
    `Anchored`. -/
theorem matchInput_anchored (table : Table) (index : Nat) (input : Input) (settings : Settings) :
    let result := matchInput table index input settings
    let walked := Walker.run ⟨table, input, settings⟩ index
    result = conclude input (outcomeOf walked, walked.2.furthest) ∧
    (∀ cursor ∈ walked.2.cursors, cursor ≤ input.size ∧ input.Holds cursor) ∧
    ∀ error, result = .error error → error.Anchored input := by
  intro result walked
  have hresult : result = conclude input (outcomeOf walked, walked.2.furthest) :=
    matchInput_eq_walk table index input settings
  have hends : Ends input 0 {} walked := Walker.run_inside ⟨table, input, settings⟩ index
  refine ⟨hresult, fun cursor hcursor => ?_, fun error herror => hends.anchored (hresult ▸ herror)⟩
  have hle := hends.inside.cursors cursor hcursor
  exact ⟨hle, Input.holds_of_le hle⟩

/-- `root := "é\n" more? "x" ""` and `more := "y"`: at `maxDepth = 1` the call of `more` is too deep, and the rest
    of `root` is matched behind the limit. -/
def behindTable : Table :=
  ⟨[⟨"root", .seq [.literal "é\n", .opt (.ref "more"), .literal "x", .literal ""]⟩, ⟨"more", .literal "y"⟩]⟩

theorem matchInput_anchored_behind :
    let input := Input.ofString "é\nx"
    let settings : Settings := { maxDepth := 1 }
    let walked := Walker.run ⟨behindTable, input, settings⟩ 0
    walked.2.limit = some 2 ∧ 3 ∈ walked.2.cursors ∧ input.Holds 3 ∧
    ∃ error, matchInput behindTable 0 input settings = .error error ∧ error.kind = .recursionLimit ∧
      error.position = 2 ∧ error.found = some "x" ∧ error.location = some ⟨1, 0⟩ := by
  intro input settings walked
  have herror : matchInput behindTable 0 input settings = .error (errorAt input .recursionLimit 2 []) := by rfl
  have hcursor : 3 ∈ walked.2.cursors := by decide
  obtain ⟨_, hcursors, herrors⟩ := matchInput_anchored behindTable 0 input settings
  have hanchored := herrors _ herror
  refine ⟨by decide, hcursor, (hcursors 3 hcursor).2, _, herror, rfl, rfl, ?_, ?_⟩
  · exact hanchored.found_eq.trans (by decide)
  · exact hanchored.location_eq.trans (by decide)

end Match

end PegTree
