import PegTree.Grammar.Reader
import PegTree.Match.Result
import PegTree.Table.Defect
import PegTree.Tree.Basic

/-!
# `Parser` — grammar and settings, ready to parse

A parser can be built only from a table that has rules and no defects.
-/

namespace PegTree

/-- Why a parser cannot be built. -/
inductive BuildError where
  /-- The text is not grammar text. -/
  | unreadable (error : Grammar.SyntaxError)
  /-- The table has a defect. -/
  | defective (defect : Defect)
  /-- The table has no rules. -/
  | emptyTable
  deriving DecidableEq, Repr

/-- The error in words. -/
def BuildError.message : BuildError → String
  | .unreadable error => error.message
  | .defective defect => defect.message
  | .emptyTable => "grammar table contains no rules"

/-- A table and settings to parse with. -/
structure Parser where
  table : Table
  settings : Settings
  deriving DecidableEq, Repr

namespace Parser

/-- A parser for a table, which must have rules and no defects. -/
def ofTable (table : Table) (settings : Settings) : Except BuildError Parser :=
  if table.isEmpty then .error .emptyTable
  else
    match table.defect? with
    | some defect => .error (.defective defect)
    | none => .ok ⟨table, settings⟩

/-- A parser for a grammar text. -/
def ofText (grammar : String) (settings : Settings) : Except BuildError Parser :=
  match Grammar.compile grammar with
  | .error error => .error (.unreadable error)
  | .ok table => ofTable table settings

/-- The name of the root rule. -/
def rootRule (parser : Parser) : String :=
  (parser.table.root?.map (·.name)).getD ""

/-- Parses the whole input from the rule at an index. -/
def parseFrom (parser : Parser) (index : Nat) (input : Input) : Except ParseError Tree :=
  (Match.matchInput parser.table index input parser.settings).map Tree.ofMatch

/-- Parses the whole input from the root rule. -/
def parse (parser : Parser) (input : Input) : Except ParseError Tree :=
  parser.parseFrom 0 input

/-- Parses the whole input from a named rule. -/
def parseRule (parser : Parser) (rule : String) (input : Input) : Except ParseError Tree :=
  match parser.table.indexOf? rule with
  | some index => parser.parseFrom index input
  | none => .error { kind := .unknownRule rule, position := 0 }

end Parser

end PegTree
