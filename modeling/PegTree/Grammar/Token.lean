import PegTree.Text.Bytes
import PegTree.Text.Position

/-!
# `Grammar.Token` — the symbols of grammar text

Grammar text is a sequence of symbols with blanks and comments between them. A `Symbol` knows its own
spelling, so a `Token` needs only the byte offset at which its symbol starts.

## Contents

* `Symbol`, `Symbol.spelling`, `Symbol.isSuffix`;
* `Symbol.kind` and `Symbol.describe` — how messages speak of a symbol;
* `Token`, `Token.span`.
-/

namespace PegTree.Grammar

open Text

/-- A symbol of grammar text. The body of a literal is what stands between its quotes, escapes
unread. -/
inductive Symbol where
  | define
  | pipe
  | question
  | star
  | openGroup
  | closeGroup
  | newline
  | name (spelling : List Char)
  | literal (body : List Char)
  deriving DecidableEq, Repr, Inhabited

namespace Symbol

/-- The text of the symbol in the grammar. -/
def spelling : Symbol → List Char
  | .define => [':', '=']
  | .pipe => ['|']
  | .question => ['?']
  | .star => ['*']
  | .openGroup => ['(']
  | .closeGroup => [')']
  | .newline => ['\n']
  | .name text => text
  | .literal body => '"' :: (body ++ ['"'])

/-- Whether the symbol may follow a term to say how often it occurs. -/
def isSuffix : Symbol → Bool
  | .question => true
  | .star => true
  | _ => false

/-- The kind of the symbol in words. -/
def kind : Symbol → String
  | .define => "':='"
  | .pipe => "'|'"
  | .question => "'?'"
  | .star => "'*'"
  | .openGroup => "'('"
  | .closeGroup => "')'"
  | .newline => "end of line"
  | .name _ => "rule name"
  | .literal _ => "literal"

/-- The symbol in words; names and literals are shown with their text. -/
def describe (symbol : Symbol) : String :=
  match symbol with
  | .name text => symbol.kind ++ " '" ++ String.ofList text ++ "'"
  | .literal _ => symbol.kind ++ " " ++ String.ofList symbol.spelling
  | _ => symbol.kind

end Symbol

/-- A symbol and the byte offset at which it starts. -/
structure Token where
  symbol : Symbol
  start : Nat
  deriving DecidableEq, Repr, Inhabited

/-- The bytes the token covers. -/
def Token.span (token : Token) : Span :=
  ⟨token.start, token.start + utf8Length token.symbol.spelling⟩

end PegTree.Grammar
