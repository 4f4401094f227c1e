import PegTree.Input
import PegTree.Table.Basic
import PegTree.Tree.Node

/-!
# `Match.Engine` — matching a rule at a place of the input

Matching follows ordered choice: an alternative is tried only after the ones before it have failed, and
what has matched is never tried again in another way. A rule that is already being matched at the same
place fails, so left recursion ends; a rule called at the greatest allowed depth stops the whole match.

What happens on the way is noted, event by event, in a state that is carried along and never looked at by
the matching itself.

## Contents

* `Event` — what is noted;
* `Engine` — what is matched against what, and how events are noted;
* `Outcome` — matched, failed, or too deep;
* `greedy` — repetition;
* `Engine.pattern` — a pattern at a place, given how rules are called;
* `Engine.rule` — a rule at a place.
-/

namespace PegTree.Match

open Text

/-! ## Events -/

/-- Something that happens while matching. -/
inductive Event where
  /-- The literal does not stand at `pos`. -/
  | missed (literal : String) (pos : Nat)
  /-- The literal stands at `pos` and ends before `stop`. -/
  | took (literal : String) (pos stop : Nat)
  /-- The rule at `index` is called at `pos` while `depth` rules are being matched. -/
  | called (index pos depth : Nat)
  /-- A reference at `pos` names no rule. -/
  | dangling (name : String) (pos : Nat)
  deriving DecidableEq, Repr

/-- What is matched against what, and how events change the noting state. -/
structure Engine (σ : Type) where
  table : Table
  input : Input
  note : σ → Event → σ

/-! ## Outcomes -/

/-- How an attempt ends. -/
inductive Outcome (α : Type) where
  /-- Matched up to `stop`, producing something. -/
  | matched (stop : Nat) (product : α)
  /-- Did not match. -/
  | failed
  /-- A rule was called too deep at `pos`. -/
  | tooDeep (pos : Nat)
  deriving DecidableEq, Repr

/-- Something to try at a place, with the noting state carried along. -/
abbrev Attempt (σ α : Type) := Nat → σ → Outcome α × σ

variable {σ α β : Type}

/-- The same outcome with another product, which may depend on where the match ends. -/
def Outcome.map (f : Nat → α → β) : Outcome α → Outcome β
  | .matched stop product => .matched stop (f stop product)
  | .failed => .failed
  | .tooDeep pos => .tooDeep pos

/-- A literal at a place. -/
def Engine.literal (engine : Engine σ) (value : String) : Attempt σ MatchTree := fun pos s =>
  match engine.input.matchLiteral? pos value with
  | some stop =>
    (.matched stop (.node ⟨.literal value, ⟨pos, stop⟩⟩ []), engine.note s (.took value pos stop))
  | none => (.failed, engine.note s (.missed value pos))

/-- One node as the product of a pattern. -/
def single : Outcome MatchTree × σ → Outcome (List MatchTree) × σ
  | (outcome, s) => (outcome.map fun _ tree => [tree], s)

/-- What follows a match, with the nodes of that match put in front. -/
def after (nodes : List MatchTree) : Outcome (List MatchTree) × σ → Outcome (List MatchTree) × σ
  | (outcome, s) => (outcome.map fun _ more => nodes ++ more, s)

/-- Repeats an attempt until it fails or matches nothing; an attempt that matches nothing leaves no
nodes. At most `fuel` attempts are made. -/
def greedy (attempt : Attempt σ (List MatchTree)) : (fuel : Nat) → Attempt σ (List MatchTree)
  | 0, pos, s => (.matched pos [], s)
  | fuel + 1, pos, s =>
    match attempt pos s with
    | (.matched stop nodes, s) =>
      if stop = pos then (.matched pos [], s) else after nodes (greedy attempt fuel stop s)
    | (.failed, s) => (.matched pos [], s)
    | (.tooDeep deep, s) => (.tooDeep deep, s)

/-! ## Patterns -/

mutual
/-- A pattern at a place, when `call` matches the rule of a name. A repetition moves forward with every
attempt but the last, so it makes at most one more attempt than there are units left. -/
def Engine.pattern (engine : Engine σ) (call : String → Attempt σ MatchTree) :
    Pattern → Attempt σ (List MatchTree)
  | .literal value, pos, s => single (engine.literal value pos s)
  | .ref name, pos, s => single (call name pos s)
  | .seq ps, pos, s => engine.sequence call ps pos s
  | .choice ps, pos, s => engine.choice call ps pos s
  | .opt p, pos, s =>
    match engine.pattern call p pos s with
    | (.failed, s) => (.matched pos [], s)
    | result => result
  | .rep p, pos, s => greedy (engine.pattern call p) (engine.input.size - pos + 1) pos s
/-- Patterns one after the other. -/
def Engine.sequence (engine : Engine σ) (call : String → Attempt σ MatchTree) :
    List Pattern → Attempt σ (List MatchTree)
  | [], pos, s => (.matched pos [], s)
  | p :: ps, pos, s =>
    match engine.pattern call p pos s with
    | (.matched stop nodes, s) => after nodes (engine.sequence call ps stop s)
    | result => result
/-- The first of the patterns that matches. -/
def Engine.choice (engine : Engine σ) (call : String → Attempt σ MatchTree) :
    List Pattern → Attempt σ (List MatchTree)
  | [], _, s => (.failed, s)
  | p :: ps, pos, s =>
    match engine.pattern call p pos s with
    | (.failed, s) => engine.choice call ps pos s
    | result => result
end

/-! ## Rules -/

/-- What the rule called `name` makes of its pattern at `pos`: one node around the nodes. -/
def wrap (name : String) (pos : Nat) : Outcome (List MatchTree) × σ → Outcome MatchTree × σ
  | (outcome, s) => (outcome.map fun stop nodes => .node ⟨.rule name, ⟨pos, stop⟩⟩ nodes, s)

/-- The rule at `index` at a place. Rules may nest `depth` deeper, and `active` holds the rules and places
that are being matched, innermost first. -/
def Engine.rule (engine : Engine σ) :
    (depth : Nat) → (active : List (Nat × Nat)) → (index : Nat) → Attempt σ MatchTree
  | 0, active, index, pos, s =>
    match engine.table.ruleAt? index with
    | none => (.failed, s)
    | some _ => (.tooDeep pos, engine.note s (.called index pos active.length))
  | depth + 1, active, index, pos, s =>
    match engine.table.ruleAt? index with
    | none => (.failed, s)
    | some rule =>
      let s := engine.note s (.called index pos active.length)
      if active.contains (index, pos) then (.failed, s)
      else
        let call : String → Attempt σ MatchTree := fun name place s =>
          match engine.table.indexOf? name with
          | none => (.failed, engine.note s (.dangling name place))
          | some next => engine.rule depth ((index, pos) :: active) next place s
        wrap rule.name pos (engine.pattern call rule.pattern pos s)

end PegTree.Match
