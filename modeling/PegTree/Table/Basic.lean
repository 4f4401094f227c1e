import PegTree.Grammar.Pattern

/-!
# `Table.Basic` — the rules of a grammar, in order of declaration

A table is the list of its rules. The first rule is the root. A name may be declared twice; looking it up
gives the first declaration.
-/

namespace PegTree

/-- The rules of a grammar in order of declaration. -/
structure Table where
  rules : List Rule
  deriving DecidableEq, Repr, Inhabited

namespace Table

/-- The index of the first rule with a name. -/
def indexOf? (table : Table) (name : String) : Option Nat :=
  table.rules.findIdx? (·.name == name)

/-- The first rule with a name. -/
def get? (table : Table) (name : String) : Option Rule :=
  table.rules.find? (·.name == name)

/-- Whether a rule with this name is declared. -/
def contains (table : Table) (name : String) : Bool :=
  table.rules.any (·.name == name)

/-- The rule at an index of the order of declaration. -/
def ruleAt? (table : Table) (index : Nat) : Option Rule :=
  table.rules[index]?

/-- The first rule. -/
def root? (table : Table) : Option Rule :=
  table.rules.head?

/-- The number of rules. -/
def size (table : Table) : Nat :=
  table.rules.length

/-- Whether a table has no rules. -/
def isEmpty (table : Table) : Bool :=
  table.rules.isEmpty

end Table

end PegTree
