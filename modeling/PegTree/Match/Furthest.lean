import PegTree.Match.Engine
import PegTree.Text.Quoted

/-!
# `Match.Furthest` — the furthest place where a literal was missed

Of all literals that were missed only those at the furthest place are worth reporting. They are kept
quoted, without repetition, in the order in which they were missed first, up to a greatest number.
-/

namespace PegTree.Match

open Text

/-- The furthest place where a literal was missed and the literals missed there, quoted. -/
structure Furthest where
  position : Nat := 0
  expected : List String := []
  deriving DecidableEq, Repr

namespace Furthest

/-- Moves to a place further on, where nothing was missed before. -/
def advance (furthest : Furthest) (pos : Nat) : Furthest :=
  if furthest.position < pos then ⟨pos, []⟩ else furthest

/-- Adds a description at the furthest place unless it is there or the list is full. -/
def add (limit : Nat) (furthest : Furthest) (description : String) : Furthest :=
  if furthest.expected.length < limit && !furthest.expected.contains description then
    { furthest with expected := furthest.expected ++ [description] }
  else furthest

/-- Takes note of a missed literal; other events do not matter. -/
def note (limit : Nat) (furthest : Furthest) : Event → Furthest
  | .missed literal pos =>
    let furthest := furthest.advance pos
    if pos = furthest.position then furthest.add limit (quoted literal) else furthest
  | _ => furthest

end Furthest

end PegTree.Match
