import PegTree.Rose
import PegTree.Text.Position

/-!
# `Tree.Node` — what a node of a parse tree stands for

A node is a successful match of a rule, or a literal matched as it stands, together with the units of the
input it covers.
-/

namespace PegTree

open Text

/-- What a node stands for. -/
inductive NodeKind where
  /-- A match of the named rule. -/
  | rule (name : String)
  /-- A literal. -/
  | literal (value : String)
  deriving DecidableEq, Repr, Inhabited

namespace NodeKind

/-- The rule name or the literal. -/
def value : NodeKind → String
  | .rule name => name
  | .literal value => value

/-- The rule name, if the node is a rule. -/
def rule? : NodeKind → Option String
  | .rule name => some name
  | .literal _ => none

/-- The literal, if the node is one. -/
def literal? : NodeKind → Option String
  | .rule _ => none
  | .literal value => some value

/-- Whether the node is a rule. -/
def isRule (kind : NodeKind) : Bool :=
  kind.rule?.isSome

/-- Whether the node is a literal. -/
def isLiteral (kind : NodeKind) : Bool :=
  kind.literal?.isSome

/-- The word for the kind. -/
def word : NodeKind → String
  | .rule _ => "rule"
  | .literal _ => "literal"

end NodeKind

/-- What a node stands for and the units of the input it covers. -/
structure Node where
  kind : NodeKind
  span : Span := ⟨0, 0⟩
  deriving DecidableEq, Repr, Inhabited

/-- A tree of nodes, as a match builds it. -/
abbrev MatchTree := Rose Node

end PegTree
