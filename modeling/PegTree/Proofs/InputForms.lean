import PegTree.Proofs.Correspondence
import PegTree.Tree.Basic

/-!
# `Proofs.InputForms` — a text is its characters, given as tokens

A text is read a character at a time and a token list a token at a time, and a literal is compared with them in
two different ways: with as many characters as it has, or with one token. For literals of one character the two
come to the same (`Input.matchLiteral?_letters`). So a grammar with no other literals mirrors itself between a
text and its list of letters, and the engine cannot tell the two apart: the trees are the same, and so are the
errors, but for the line and column that only a text has.
-/

namespace PegTree

/-! ## Letters -/

/-- The characters of a string, each as a string of length one. -/
def letters (source : String) : List String :=
  source.toList.map fun c => String.ofList [c]

namespace Input

theorem size_letters (source : String) : (ofTokens (letters source)).size = (ofString source).size := by
  simp [ofTokens, ofString, size, letters]

theorem unit?_letters (source : String) (pos : Nat) :
    (ofTokens (letters source)).unit? pos = (ofString source).unit? pos := by
  simp [ofTokens, ofString, unit?, letters]

/-- `matchLiteral?` of a literal of one character `c` compares `chars[pos]?` with `c`. -/
theorem matchLiteral?_char (chars : Array Char) (pos : Nat) (c : Char) :
    (Input.text chars).matchLiteral? pos (String.ofList [c])
      = if chars[pos]? = some c then some (pos + 1) else none := by
  simp only [matchLiteral?, String.toList_ofList, standsAt, List.length_singleton, Bool.and_true]
  by_cases hc : chars[pos]? = some c
  · have hle : pos ≤ chars.size := Nat.le_of_lt (Array.getElem?_eq_some_iff.mp hc).1
    simp [hc, hle]
  · simp [hc]

/-- **A literal of length one** stands in `ofTokens (letters source)` where it stands in `ofString source`. -/
theorem matchLiteral?_letters (source : String) {value : String} (hone : value.length = 1) (pos : Nat) :
    (ofTokens (letters source)).matchLiteral? pos value = (ofString source).matchLiteral? pos value := by
  obtain ⟨c, hc⟩ : ∃ c, value = String.ofList [c] := by
    obtain ⟨c, hc⟩ := List.length_eq_one_iff.mp (value.length_toList.trans hone)
    exact ⟨c, by rw [← hc, String.ofList_toList]⟩
  subst hc
  unfold ofString ofTokens
  rw [matchLiteral?_char, matchLiteral?]
  have hitem : (letters source).toArray[pos]? = some (String.ofList [c]) ↔
      source.toList.toArray[pos]? = some c := by
    simp [letters]
  simp only [hitem]

end Input

namespace Match

/-! ## The mirror -/

/-- Every literal in the table has length one. -/
def SingleLiterals (table : Table) : Prop :=
  ∀ rule ∈ table.rules, ∀ value, (Pattern.literal value).Within rule.pattern → value.length = 1

instance (table : Table) : Decidable (SingleLiterals table) :=
  decidable_of_iff (∀ rule ∈ table.rules, ∀ value ∈ rule.pattern.literals, value.length = 1) (by
    simp only [SingleLiterals, Pattern.mem_literals_iff])

theorem sameName_refl (table : Table) (name : String) : SameName table table Eq name (id name) := by
  unfold SameName
  rw [id]
  cases table.indexOf? name with
  | none => exact .none
  | some index => exact .some rfl

/-- **A table of such literals mirrors itself** between `ofString source` and `ofTokens (letters source)`, with
    `rename := id`. -/
def lettersMirror {table : Table} (h : SingleLiterals table) (source : String) :
    Mirror table table (.ofString source) (.ofTokens (letters source)) where
  rename := id
  counterpart := Eq
  biUnique := ⟨fun _ _ _ h h' => h.trans h'.symm, fun _ _ _ h h' => h.symm.trans h'⟩
  rules := by
    rintro i _ rfl
    cases hrule : table.ruleAt? i with
    | none => exact .none
    | some rule =>
        have hmem : rule ∈ table.rules := List.mem_of_getElem? hrule
        have hliterals : ∀ value, (Pattern.literal value).Within rule.pattern →
            SameLiteral (.ofString source) (.ofTokens (letters source)) value :=
          fun value hvalue => Input.matchLiteral?_letters source (h rule hmem value hvalue)
        have halike := Pattern.alike_rename rule.pattern hliterals fun name _ => sameName_refl table name
        rw [Pattern.rename_id] at halike
        exact .some ⟨rfl, halike⟩
  size_eq := Input.size_letters source
  unit?_eq := Input.unit?_letters source

end Match

/-- The error with `location := none`. -/
def ParseError.unlocated (error : ParseError) : ParseError :=
  { error with location := none }

namespace Match

/-- **One engine, two forms of input.** With `SingleLiterals table`, `ofTokens (letters source)` gives the same
    store as `ofString source`, or the same error `unlocated`; the error of the text always has a location. -/
theorem matchInput_letters {table : Table} (h : SingleLiterals table) (index : Nat) (source : String)
    (settings : Settings) :
    (matchInput table index (.ofTokens (letters source)) settings).map Tree.ofMatch
      = ((matchInput table index (.ofString source) settings).map Tree.ofMatch).mapError
          ParseError.unlocated ∧
    ∀ error, matchInput table index (.ofString source) settings = .error error →
      ∃ position, error.location = some position := by
  constructor
  · rw [matchInput_mirrored (lettersMirror h source) rfl settings]
    cases matchInput table index (.ofString source) settings with
    | ok tree => exact congrArg (Except.ok ∘ Tree.ofMatch) tree.rename_id
    | error error => rfl
  · intro error herror
    exact ⟨_, matchInput_location herror⟩

/-- `lines := line*` and `line := (line "+")? "é" line? "\n"`, which recurs on its left. -/
def linesTable : Table :=
  ⟨[⟨"lines", .rep (.ref "line")⟩,
    ⟨"line", .seq [.opt (.seq [.ref "line", .literal "+"]), .literal "é", .opt (.ref "line"),
      .literal "\n"]⟩]⟩

/-- The theorem at a text that is not accepted and at one that is. The error is at `⟨1, 1⟩`, a line and a column
    that the letters lack. -/
theorem matchInput_letters_linesTable :
    SingleLiterals linesTable ∧
      matchInput linesTable 0 (.ofString "é\né!") {} = .error
        { kind := .trailingInput, position := 3, location := some ⟨1, 1⟩,
          expected := ["\"é\"", "\"\\n\""], found := some "!" } ∧
      (matchInput linesTable 0 (.ofTokens ["é", "\n", "é", "!"]) {}).map Tree.ofMatch = .error
        { kind := .trailingInput, position := 3, expected := ["\"é\"", "\"\\n\""], found := some "!" } ∧
      ∃ found, matchInput linesTable 0 (.ofString "éé\n\n") {} = .ok found ∧
        (matchInput linesTable 0 (.ofTokens ["é", "é", "\n", "\n"]) {}).map Tree.ofMatch
          = .ok (Tree.ofMatch found) := by
  have hsingle : SingleLiterals linesTable := by decide
  have htext : matchInput linesTable 0 (.ofString "é\né!") {} = .error
      { kind := .trailingInput, position := 3, location := some ⟨1, 1⟩,
        expected := ["\"é\"", "\"\\n\""], found := some "!" } := by rfl
  have hletters := (matchInput_letters hsingle 0 "é\né!" {}).1
  rw [htext] at hletters
  obtain ⟨found, hfound⟩ : ∃ found, matchInput linesTable 0 (.ofString "éé\n\n") {} = .ok found := ⟨_, rfl⟩
  have haccepted := (matchInput_letters hsingle 0 "éé\n\n" {}).1
  rw [hfound] at haccepted
  exact ⟨hsingle, htext, hletters, found, hfound, haccepted⟩

end Match

end PegTree
