/-!
# `Settings.Basic` — what a parser can be tuned with
-/

namespace PegTree

/-- How deep rules may nest, how many expectations an error lists, and how many characters of a label an
outline shows. -/
structure Settings where
  maxDepth : Nat := 512
  maxExpected : Nat := 8
  maxLabelWidth : Nat := 30
  deriving DecidableEq, Repr, Inhabited

end PegTree
