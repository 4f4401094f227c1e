/-!
# `Text.Ranges` — sets of characters given by ranges of code points

A property of characters that a standard lists as a table is kept as its ranges, in ascending order, and
asked by walking that list.
-/

namespace PegTree.Text

/-- Whether a code point lies in one of the ranges (both ends included) of an ascending list. -/
def inRanges : List (Nat × Nat) → Nat → Bool
  | [], _ => false
  | (first, last) :: more, n => if n < first then false else n ≤ last || inRanges more n

end PegTree.Text
