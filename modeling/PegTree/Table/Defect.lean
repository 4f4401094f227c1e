import PegTree.Table.Basic

/-!
# `Table.Defect` — what makes a table unfit for parsing

Five conditions are checked in a fixed order, and the first one that fails is reported: literals are not
empty, names are declared once, referenced names are declared, the root is not referenced, and every other
rule can be reached from the root. Within one condition rules are looked at in order of declaration and
references in the order of the pattern.

## Contents

* `Defect` and its wording;
* `Table.reachable` — the names that can be reached from the root;
* `Table.defect?` — the first defect.
-/

namespace PegTree

/-- What makes a table unfit for parsing. -/
inductive Defect where
  /-- A pattern of `rule` has an empty literal. -/
  | emptyLiteral (rule : String)
  /-- The name `rule` is declared again. -/
  | duplicateRule (rule : String)
  /-- The pattern of `referencedIn` names a rule that is not declared. -/
  | orphan (name referencedIn : String)
  /-- The pattern of `referencedIn` names the root. -/
  | usedRoot (root referencedIn : String)
  /-- The rule cannot be reached from the root. -/
  | unused (rule : String)
  deriving DecidableEq, Repr

namespace Defect

/-- The kind of the defect, as messages name it. -/
def kind : Defect → String
  | .emptyLiteral _ => "EmptyLiteral"
  | .duplicateRule _ => "DuplicateRule"
  | .orphan _ _ => "OrphanNonterminal"
  | .usedRoot _ _ => "UsedRootSymbol"
  | .unused _ => "UnusedSymbol"

/-- What is wrong, in words. -/
def reason : Defect → String
  | .emptyLiteral _ => "literals must contain at least one character"
  | .duplicateRule _ => "a rule with this name is already declared"
  | .orphan _ _ => "the referenced rule is never declared"
  | .usedRoot _ _ => "the root rule cannot be referenced from inside the grammar"
  | .unused _ => "the rule is declared but never referenced"

/-- The name the defect is about. -/
def name : Defect → String
  | .emptyLiteral rule => rule
  | .duplicateRule rule => rule
  | .orphan name _ => name
  | .usedRoot root _ => root
  | .unused rule => rule

/-- For a bad reference, the rule whose pattern holds it. -/
def referencedIn? : Defect → Option String
  | .orphan _ rule => some rule
  | .usedRoot _ rule => some rule
  | _ => none

/-- The defect in words. -/
def message (defect : Defect) : String :=
  defect.kind ++ " '" ++ defect.name ++ "': " ++ defect.reason

end Defect

namespace Table

/-! ## The five checks -/

/-- The first rule with an empty literal. -/
def emptyLiteral? (table : Table) : Option Defect :=
  (table.rules.find? (·.pattern.literals.contains "")).map fun rule => .emptyLiteral rule.name

/-- The first name in a list that occurs before. -/
def firstRepeated? : (seen names : List String) → Option String
  | _, [] => none
  | seen, name :: names => if seen.contains name then some name else firstRepeated? (name :: seen) names

/-- The first name that is declared again. -/
def duplicate? (table : Table) : Option Defect :=
  (firstRepeated? [] (table.rules.map (·.name))).map .duplicateRule

/-- The first reference to a name that is not declared. -/
def orphan? (table : Table) : Option Defect :=
  table.rules.findSome? fun rule =>
    (rule.pattern.references.find? (!table.contains ·)).map (.orphan · rule.name)

/-- The first rule that refers to the root. -/
def usedRoot? (table : Table) : Option Defect :=
  table.root?.bind fun root =>
    (table.rules.find? (·.pattern.references.contains root.name)).map (.usedRoot root.name ·.name)

/-- The names that the first rule called `name` refers to. -/
def successors (table : Table) (name : String) : List String :=
  match table.get? name with
  | some rule => rule.pattern.references
  | none => []

/-- Visits pending names, the latest first, and puts the names each one refers to on top; `fuel` bounds
the number of visits. -/
def visit (table : Table) : (fuel : Nat) → (pending visited : List String) → List String
  | 0, _, visited => visited
  | _ + 1, [], visited => visited
  | fuel + 1, name :: pending, visited =>
    if visited.contains name then table.visit fuel pending visited
    else table.visit fuel ((table.successors name).reverse ++ pending) (name :: visited)

/-- The names that can be reached from the root. Every rule is expanded at most once, so there are no more
visits than references, and one for the root. -/
def reachable (table : Table) : List String :=
  match table.root? with
  | some root => table.visit (1 + (table.rules.flatMap (·.pattern.references)).length) [root.name] []
  | none => []

/-- The first rule after the root that cannot be reached. -/
def unused? (table : Table) : Option Defect :=
  let reachable := table.reachable
  (table.rules.tail.find? (!reachable.contains ·.name)).map (.unused ·.name)

/-- The first defect of a table, if it has one. -/
def defect? (table : Table) : Option Defect :=
  table.emptyLiteral? <|> table.duplicate? <|> table.orphan? <|> table.usedRoot? <|> table.unused?

end Table

end PegTree
