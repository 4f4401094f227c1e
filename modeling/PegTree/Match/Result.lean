import PegTree.Match.Furthest
import PegTree.Match.ParseError
import PegTree.Settings.Basic

/-!
# `Match.Result` — matching a rule against a whole input

A rule is accepted when it matches from the first unit to the last. Otherwise the error is about the
furthest place where a literal was missed, or about the first unit that was left behind.
-/

namespace PegTree.Match

/-- An error about a unit of an input. -/
def errorAt (input : Input) (kind : ParseError.Kind) (pos : Nat) (expected : List String) :
    ParseError where
  kind := kind
  position := pos
  location := input.location? pos
  expected := expected
  found := input.unit? pos

/-- What the end of a match means for the whole input. -/
def conclude (input : Input) : Outcome MatchTree × Furthest → Except ParseError MatchTree
  | (.tooDeep pos, _) => .error (errorAt input .recursionLimit pos [])
  | (.failed, furthest) => .error (errorAt input .noMatch furthest.position furthest.expected)
  | (.matched stop tree, furthest) =>
    if stop = input.size then .ok tree
    else if stop ≤ furthest.position && !furthest.expected.isEmpty then
      .error (errorAt input .trailingInput furthest.position furthest.expected)
    else .error (errorAt input .trailingInput stop ["end of input"])

/-- Matches the rule at `index` against the whole of the input. -/
def matchInput (table : Table) (index : Nat) (input : Input) (settings : Settings) :
    Except ParseError MatchTree :=
  let engine : Engine Furthest := ⟨table, input, Furthest.note settings.maxExpected⟩
  conclude input (engine.rule settings.maxDepth [] index 0 {})

end PegTree.Match
