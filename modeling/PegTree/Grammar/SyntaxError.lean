import PegTree.Grammar.Token

/-!
# `Grammar.SyntaxError` — why a text is not grammar text

A `Fault` is a cause and the bytes it concerns; a `SyntaxError` adds the line and column at which those
bytes start.

## Contents

* `Expectation` — what could have continued the text;
* `Cause`, `Cause.message`;
* `Fault`, `SyntaxError`, `Fault.locate`, `SyntaxError.message`.
-/

namespace PegTree.Grammar

open Text

/-- What could have continued the text where it went wrong. -/
inductive Expectation where
  | ruleName
  | define
  | term
  | ruleDeclaration
  deriving DecidableEq, Repr

/-- The expectation in words. -/
def Expectation.text : Expectation → String
  | .ruleName => "rule name"
  | .define => "':='"
  | .term => "term"
  | .ruleDeclaration => "rule declaration"

/-- Why a text is not grammar text. -/
inductive Cause where
  /-- A literal is not closed on its line. -/
  | unterminatedLiteral
  /-- A literal escapes a character that has no escape. -/
  | invalidEscape (escaped : Char)
  /-- No symbol starts with this character. -/
  | unknownSymbol (symbol : Char)
  /-- A symbol stands where it cannot. -/
  | unexpectedToken (found : Symbol) (expected : Expectation)
  /-- The text ends where it cannot. -/
  | unexpectedEnd (expected : Expectation)
  /-- The text declares nothing. -/
  | noRules
  deriving DecidableEq, Repr

/-- The cause in words. -/
def Cause.message : Cause → String
  | .unterminatedLiteral => "unterminated literal"
  | .invalidEscape escaped => "invalid escape sequence '\\" ++ String.ofList [escaped] ++ "' in literal"
  | .unknownSymbol symbol => "unknown symbol '" ++ String.ofList [symbol] ++ "'"
  | .unexpectedToken found expected =>
    "unexpected " ++ found.describe ++ ", expected " ++ expected.text
  | .unexpectedEnd expected => "unexpected end of grammar, expected " ++ expected.text
  | .noRules => "grammar declares no rules"

/-- A cause and the bytes of the text it concerns. -/
structure Fault where
  cause : Cause
  span : Span
  deriving DecidableEq, Repr

/-- A fault with the line and column at which its span starts. -/
structure SyntaxError extends Fault where
  position : Position
  deriving DecidableEq, Repr

/-- Finds the line and column of a fault in the text it was met in. -/
def Fault.locate (source : List Char) (fault : Fault) : SyntaxError :=
  ⟨fault, (LineIndex.ofText source).position fault.span.start⟩

/-- The error in words. -/
def SyntaxError.message (error : SyntaxError) : String :=
  "grammar syntax error at " ++ error.position.text ++ ": " ++ error.cause.message

end PegTree.Grammar
