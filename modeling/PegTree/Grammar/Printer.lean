import PegTree.Grammar.Literal
import PegTree.Grammar.Token
import PegTree.Table.Basic

/-!
# `Grammar.Printer` — patterns and tables as grammar text

A pattern is first spelled out as symbols, with groups only where the levels need them; the symbols are
then laid out with a blank between neighbours, except inside the brackets of a group, before a suffix and
around the end of a line.

## Contents

* `Pattern.symbols`, `Rule.symbols`, `Table.symbols`;
* `layout` — symbols as text;
* `Pattern.text`, `Rule.text`, `Table.text`.
-/

namespace PegTree

open Grammar

/-! ## Symbols -/

/-- How tightly a pattern binds: a choice least, then a sequence, then a suffix, then a single symbol. -/
def Pattern.level : Pattern → Nat
  | .choice _ => 0
  | .seq _ => 1
  | .opt _ => 2
  | .rep _ => 2
  | .literal _ => 3
  | .ref _ => 3

/-- The symbols of an operand, in a group if it binds less tightly than its place asks. -/
def Grammar.operand (place level : Nat) (symbols : List Symbol) : List Symbol :=
  if level < place then .openGroup :: (symbols ++ [.closeGroup]) else symbols

mutual
/-- The symbols that spell a pattern. An empty sequence or choice is spelled as an empty group. -/
def Pattern.symbols : Pattern → List Symbol
  | .literal value => [.literal (escape value.toList)]
  | .ref name => [.name name.toList]
  | .seq [] => [.openGroup, .closeGroup]
  | .seq (p :: ps) => Pattern.sequenceSymbols (p :: ps)
  | .choice [] => [.openGroup, .closeGroup]
  | .choice (p :: ps) => operand 1 p.level p.symbols ++ Pattern.otherSymbols ps
  | .opt p => operand 2 p.level p.symbols ++ [.question]
  | .rep p => operand 2 p.level p.symbols ++ [.star]
/-- The symbols of the terms of a sequence. -/
def Pattern.sequenceSymbols : List Pattern → List Symbol
  | [] => []
  | p :: ps => operand 2 p.level p.symbols ++ Pattern.sequenceSymbols ps
/-- The symbols of the alternatives after the first. -/
def Pattern.otherSymbols : List Pattern → List Symbol
  | [] => []
  | p :: ps => .pipe :: (operand 1 p.level p.symbols ++ Pattern.otherSymbols ps)
end

/-- The symbols of a declaration. -/
def Rule.symbols (rule : Rule) : List Symbol :=
  .name rule.name.toList :: .define :: rule.pattern.symbols

/-- The symbols of a table: one declaration on each line. -/
def Table.symbols (table : Table) : List Symbol :=
  table.rules.flatMap fun rule => rule.symbols ++ [.newline]

/-! ## Layout -/

/-- Whether a blank stands between two neighbouring symbols. -/
def Grammar.spaced : Symbol → Symbol → Bool
  | .openGroup, _ => false
  | .newline, _ => false
  | _, .closeGroup => false
  | _, .question => false
  | _, .star => false
  | _, .newline => false
  | _, _ => true

/-- Symbols as text. -/
def Grammar.layout : List Symbol → List Char
  | [] => []
  | [a] => a.spelling
  | a :: b :: rest =>
    if spaced a b then a.spelling ++ ' ' :: layout (b :: rest)
    else a.spelling ++ layout (b :: rest)

/-- A pattern as grammar text. -/
def Pattern.text (p : Pattern) : String :=
  String.ofList (layout p.symbols)

/-- A rule as grammar text. -/
def Rule.text (rule : Rule) : String :=
  String.ofList (layout rule.symbols)

/-- A table as grammar text, one rule on each line. -/
def Table.text (table : Table) : String :=
  String.ofList (layout table.symbols)

end PegTree
