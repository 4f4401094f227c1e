import PegTree.Grammar.SyntaxError

/-!
# `Grammar.Lexer` — grammar text cut into tokens

At every place the longest symbol is taken. Runs of blanks, and comments up to the end of their line, are
passed over. The first place where neither a symbol nor a skipped run starts is an error, and so is a
quote whose literal is not closed on its line.

The text is walked character by character: `tokensFrom` passes over the characters of a piece that has
already been recognised and looks for the next piece at the first character after it.

## Contents

* `isBlank`, `isNameStart`, `isNamePart` — the character classes;
* `literalBody` — the longest literal body after an opening quote;
* `Piece`, `pieceAt` — what stands at one place of the text;
* `tokenize` — the tokens of a text.
-/

namespace PegTree.Grammar

open Text

/-! ## Character classes -/

/-- A blank that separates symbols without ending the line. -/
def isBlank (c : Char) : Bool :=
  c == ' ' || c == '\t' || c == '\r' || c == '\x0c'

/-- A character a rule name may start with: an ASCII letter or an underscore. -/
def isNameStart (c : Char) : Bool :=
  c.isAlpha || c == '_'

/-- A character a rule name may go on with: an ASCII letter or digit, an underscore or a hyphen. -/
def isNamePart (c : Char) : Bool :=
  c.isAlphanum || c == '_' || c == '-'

/-! ## One piece of text -/

/-- The longest literal body at the start of a text, and whether a closing quote follows it. A body
consists of characters other than quote, backslash and newline, and of backslashes each followed by a
character other than newline. -/
def literalBody : List Char → List Char × Bool
  | [] => ([], false)
  | ['\\'] => ([], false)
  | '\\' :: c :: rest =>
    if c = '\n' then ([], false)
    else
      let (body, closed) := literalBody rest
      ('\\' :: c :: body, closed)
  | c :: rest =>
    if c = '"' then ([], true)
    else if c = '\n' then ([], false)
    else
      let (body, closed) := literalBody rest
      (c :: body, closed)

/-- What stands at one place of the text. -/
inductive Piece where
  /-- Blanks, or a comment. -/
  | skipped (run : List Char)
  | symbol (symbol : Symbol)
  /-- A quote and the longest body after it, with no closing quote. -/
  | unterminated (run : List Char)
  | unknown (c : Char)
  deriving DecidableEq, Repr

/-- The longest piece that starts with character `c` when `rest` follows it. -/
def pieceAt (c : Char) (rest : List Char) : Piece :=
  if isBlank c then .skipped (c :: rest.takeWhile isBlank)
  else if isNameStart c then .symbol (.name (c :: rest.takeWhile isNamePart))
  else if c = '#' then .skipped (c :: rest.takeWhile (· != '\n'))
  else if c = '"' then
    match literalBody rest with
    | (body, true) => .symbol (.literal body)
    | (body, false) => .unterminated (c :: body)
  else if c = '|' then .symbol .pipe
  else if c = '?' then .symbol .question
  else if c = '*' then .symbol .star
  else if c = '(' then .symbol .openGroup
  else if c = ')' then .symbol .closeGroup
  else if c = '\n' then .symbol .newline
  else if c = ':' && rest.head? == some '=' then .symbol .define
  else .unknown c

/-! ## The whole text -/

/-- The tokens of a text that begins at byte `offset`, of which the first `seen` characters belong to a
piece that was recognised before. -/
def tokensFrom : List Char → (seen offset : Nat) → Except Fault (List Token)
  | [], _, _ => .ok []
  | c :: rest, seen + 1, offset => tokensFrom rest seen (offset + c.utf8Size)
  | c :: rest, 0, offset =>
    match pieceAt c rest with
    | .skipped run => tokensFrom rest (run.length - 1) (offset + c.utf8Size)
    | .symbol symbol =>
      match tokensFrom rest (symbol.spelling.length - 1) (offset + c.utf8Size) with
      | .ok tokens => .ok (⟨symbol, offset⟩ :: tokens)
      | .error fault => .error fault
    | .unterminated run => .error ⟨.unterminatedLiteral, ⟨offset, offset + utf8Length run⟩⟩
    | .unknown symbol => .error ⟨.unknownSymbol symbol, ⟨offset, offset + symbol.utf8Size⟩⟩

/-- The tokens of a text, in order. -/
def tokenize (source : List Char) : Except SyntaxError (List Token) :=
  (tokensFrom source 0 0).mapError (·.locate source)

end PegTree.Grammar
