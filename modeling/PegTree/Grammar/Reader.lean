import PegTree.Grammar.Lexer
import PegTree.Grammar.Literal
import PegTree.Table.Basic

/-!
# `Grammar.Reader` — grammar text read into a table

Grammar text is read in steps, and the first step that fails decides the error: the text is cut into
tokens, the escapes of all literals are checked, the tokens are read line by line, and the lines are put
together into rules.

Lines are read by a machine that takes one token at a time. Between lines it waits for a rule name or a
pipe; inside a line it keeps the alternatives and terms read so far, one `Level` for the line and one for
each group that is still open. A token that no state can take is the error, at that token.

## Contents

* `Line` — a declaration, or the continuation of one;
* `Level`, `State`, `State.step`, `State.finish`, `readLines` — the machine;
* `gather` — continuations folded into the declarations above them;
* `compile` — the table of a text.
-/

namespace PegTree.Grammar

open Text

/-! ## Lines -/

/-- What opens a line: the name of a declared rule, or the pipe of a continuation with its span. -/
inductive Opening where
  | declaration (name : List Char)
  | continuation (pipe : Span)
  deriving DecidableEq, Repr

/-- A line of grammar text that is not blank. -/
structure Line where
  opening : Opening
  alternatives : List Pattern
  deriving DecidableEq, Repr

/-! ## The machine -/

/-- Alternatives being read: those that are complete, and the terms of the one that is not, each list
with the latest first. -/
structure Level where
  complete : List Pattern := []
  terms : List Pattern := []
  deriving DecidableEq, Repr

namespace Level

/-- Adds a term. -/
def push (level : Level) (term : Pattern) : Level :=
  { level with terms := term :: level.terms }

/-- Ends the alternative being read. -/
def next (level : Level) : Level :=
  ⟨Pattern.sequence level.terms.reverse :: level.complete, []⟩

/-- All alternatives in order, the one being read included. -/
def alternatives (level : Level) : List Pattern :=
  level.next.complete.reverse

end Level

/-- Where the machine stands. -/
inductive State where
  /-- At the start of a line. -/
  | lineStart
  /-- After the name that opens a line. -/
  | named (name : List Char)
  /-- Inside a line: the innermost level and the levels around it, innermost first. -/
  | inside (opening : Opening) (level : Level) (outer : List Level)
  deriving DecidableEq, Repr

/-- What a token leads to: a new state, a new state and a finished line, or nothing because another
symbol was expected. -/
inductive Step where
  | moved (state : State)
  | finished (line : Line)
  | refused (expected : Expectation)
  deriving DecidableEq, Repr

namespace State

/-- One symbol inside a line, after at least one term of the alternative being read: `last` is the latest
term and `level` holds the terms before it. -/
def stepAfterTerm (opening : Opening) (level : Level) (last : Pattern) (outer : List Level) :
    Symbol → Step
  | .literal body => .moved (.inside opening
      ((level.push last).push (.literal (String.ofList (unescape body)))) outer)
  | .name name => .moved (.inside opening ((level.push last).push (.ref (String.ofList name))) outer)
  | .openGroup => .moved (.inside opening {} (level.push last :: outer))
  | .question => .moved (.inside opening (level.push (.opt last)) outer)
  | .star => .moved (.inside opening (level.push (.rep last)) outer)
  | .pipe => .moved (.inside opening (level.push last).next outer)
  | .closeGroup =>
    match outer with
    | [] => .refused .term
    | around :: outer =>
      .moved (.inside opening (around.push (.oneOf (level.push last).alternatives)) outer)
  | .newline =>
    match outer with
    | [] => .finished ⟨opening, (level.push last).alternatives⟩
    | _ :: _ => .refused .term
  | .define => .refused .term

/-- One symbol inside a line where a term has to start. -/
def stepBeforeTerm (opening : Opening) (level : Level) (outer : List Level) : Symbol → Step
  | .literal body =>
    .moved (.inside opening (level.push (.literal (String.ofList (unescape body)))) outer)
  | .name name => .moved (.inside opening (level.push (.ref (String.ofList name))) outer)
  | .openGroup => .moved (.inside opening {} (level :: outer))
  | _ => .refused .term

/-- One token. -/
def step (state : State) (token : Token) : Step :=
  match state with
  | .lineStart =>
    match token.symbol with
    | .name name => .moved (.named name)
    | .pipe => .moved (.inside (.continuation token.span) {} [])
    | .newline => .moved .lineStart
    | _ => .refused .ruleName
  | .named name =>
    match token.symbol with
    | .define => .moved (.inside (.declaration name) {} [])
    | _ => .refused .define
  | .inside opening level outer =>
    match level.terms with
    | [] => stepBeforeTerm opening level outer token.symbol
    | last :: terms => stepAfterTerm opening { level with terms } last outer token.symbol

/-- The end of the text: the line it finishes, if any, or what was expected before it. -/
def finish : State → Except Expectation (List Line)
  | .lineStart => .ok []
  | .named _ => .error .define
  | .inside opening level outer =>
    match level.terms, outer with
    | _ :: _, [] => .ok [⟨opening, level.alternatives⟩]
    | _, _ => .error .term

end State

/-- The lines that the tokens spell from a state on, for a text of `length` bytes. -/
def linesFrom (length : Nat) : State → List Token → Except Fault (List Line)
  | state, [] =>
    match state.finish with
    | .ok lines => .ok lines
    | .error expected => .error ⟨.unexpectedEnd expected, ⟨length, length⟩⟩
  | state, token :: tokens =>
    match state.step token with
    | .moved state => linesFrom length state tokens
    | .finished line =>
      match linesFrom length .lineStart tokens with
      | .ok lines => .ok (line :: lines)
      | .error fault => .error fault
    | .refused expected => .error ⟨.unexpectedToken token.symbol expected, token.span⟩

/-! ## Rules -/

/-- The rules of the lines that follow the declaration of `name`, whose alternatives so far are given. -/
def gather (name : List Char) (alternatives : List Pattern) : List Line → List Rule
  | [] => [⟨String.ofList name, .oneOf alternatives⟩]
  | ⟨.declaration next, more⟩ :: lines =>
    ⟨String.ofList name, .oneOf alternatives⟩ :: gather next more lines
  | ⟨.continuation _, more⟩ :: lines => gather name (alternatives ++ more) lines

/-- The rules of the lines of a text of `length` bytes. A continuation must have a declaration above it,
and there must be at least one declaration. -/
def rulesOf (length : Nat) : List Line → Except Fault (List Rule)
  | [] => .error ⟨.noRules, ⟨length, length⟩⟩
  | ⟨.continuation pipe, _⟩ :: _ => .error ⟨.unexpectedToken .pipe .ruleDeclaration, pipe⟩
  | ⟨.declaration name, alternatives⟩ :: lines => .ok (gather name alternatives lines)

/-! ## The whole text -/

/-- The first bad escape among the literals of a token list: the backslash and the character after it. -/
def escapeFault? : List Token → Option Fault
  | [] => none
  | token :: tokens =>
    match token.symbol with
    | .literal body =>
      match badEscape? (token.start + '"'.utf8Size) body with
      | some (start, c) =>
        some ⟨.invalidEscape c, ⟨start, start + '\\'.utf8Size + c.utf8Size⟩⟩
      | none => escapeFault? tokens
    | _ => escapeFault? tokens

/-- The rules that the tokens of a text of `length` bytes spell. -/
def rulesOfTokens (length : Nat) (tokens : List Token) : Except Fault (List Rule) :=
  match escapeFault? tokens with
  | some fault => .error fault
  | none =>
    match linesFrom length .lineStart tokens with
    | .error fault => .error fault
    | .ok lines => rulesOf length lines

/-- The table that a text declares. -/
def compileChars (source : List Char) : Except SyntaxError Table :=
  match tokenize source with
  | .error error => .error error
  | .ok tokens =>
    match rulesOfTokens (utf8Length source) tokens with
    | .error fault => .error (fault.locate source)
    | .ok rules => .ok ⟨rules⟩

/-- The table that a grammar text declares. -/
def compile (source : String) : Except SyntaxError Table :=
  compileChars source.toList

end PegTree.Grammar
