import PegTree.Json.Skip
import PegTree.Snapshot.Basic

/-!
# `Snapshot.JsonReader` — snapshots from JSON text

A node is an object with the members `node_type`, `label`, `span` and, if it has children, `children`, in
any order; other members are passed over. It may also be an array of the same things in that order. A span
is an object with exactly the members `start` and `end`, or an array of the two. The text is read from left
to right, and the first thing that is wrong decides the fault. At most 127 brackets may be open at once.

## Contents

* `fieldsFrom`, `itemStart`, `itemsFrom` — the members of an object and the items of an array;
* `readSpan`, `readNode`;
* `ofJson` — the snapshot of a text.
-/

namespace PegTree.Snapshot

open Text Json

/-! ## Objects and arrays -/

/-- The colon after a name. -/
def afterColon (text : List Char) : Except Fault (List Char) :=
  match skipBlanks text with
  | [] => .error .truncated
  | ':' :: rest => .ok rest
  | _ => .error .malformed

/-- Whether another member of an object follows, and the text just past the opening quote of its name or
just past the end of the object. -/
def nameStart (first : Bool) (text : List Char) : Except Fault (Bool × List Char) :=
  match skipBlanks text with
  | [] => .error .truncated
  | '\x7d' :: rest => .ok (false, rest)
  | '"' :: rest => if first then .ok (true, rest) else .error .malformed
  | ',' :: rest =>
    if first then .error .malformed
    else
      match skipBlanks rest with
      | [] => .error .truncated
      | '"' :: rest => .ok (true, rest)
      | _ => .error .malformed
  | _ => .error .malformed

/-- The members of an object after its opening bracket. For each name `member` gives the reader of its
value, which changes what has been read so far, or refuses the name. -/
def fieldsFrom {σ : Type} (member : σ → List Char → Except Fault (Reader σ)) :
    (fuel : Nat) → (first : Bool) → σ → Reader σ
  | 0, _, _, _ => .error .truncated
  | fuel + 1, first, state, text =>
    match nameStart first text with
    | .error fault => .error fault
    | .ok (false, rest) => .ok (state, rest)
    | .ok (true, rest) =>
      match readString rest with
      | .error fault => .error fault
      | .ok (name, rest) =>
        match member state name with
        | .error fault => .error fault
        | .ok reader =>
          match afterColon rest with
          | .error fault => .error fault
          | .ok rest =>
            match reader rest with
            | .error fault => .error fault
            | .ok (state, rest) => fieldsFrom member fuel false state rest

/-- Whether another item of an array starts, and the text from there on; the closing bracket is left. -/
def itemStart (first : Bool) (text : List Char) : Except Fault (Bool × List Char) :=
  match skipBlanks text with
  | [] => .error .truncated
  | ']' :: rest => .ok (false, ']' :: rest)
  | c :: rest =>
    if first then .ok (true, c :: rest)
    else if c = ',' then
      match skipBlanks rest with
      | [] => .error .truncated
      | ']' :: _ => .error .malformed
      | rest => .ok (true, rest)
    else .error .malformed

/-- The next item of an array, which must not end here. -/
def nextItem {α : Type} (first : Bool) (item : Reader α) : Reader α := fun text =>
  match itemStart first text with
  | .error fault => .error fault
  | .ok (false, _) => .error .unfit
  | .ok (true, rest) => item rest

/-- The closing bracket of an array. -/
def arrayEnd (text : List Char) : Except Fault (List Char) :=
  match skipBlanks text with
  | [] => .error .truncated
  | ']' :: rest => .ok rest
  | _ => .error .malformed

/-- The items of an array after its opening bracket, the closing bracket included. -/
def itemsFrom {α : Type} (item : Reader α) : (fuel : Nat) → (first : Bool) → Reader (List α)
  | 0, _, _ => .error .truncated
  | fuel + 1, first, text =>
    match itemStart first text with
    | .error fault => .error fault
    | .ok (false, rest) => (arrayEnd rest).map fun rest => ([], rest)
    | .ok (true, rest) =>
      match item rest with
      | .error fault => .error fault
      | .ok (value, rest) => (itemsFrom item fuel false rest).map fun (more, rest) => (value :: more, rest)

/-! ## Values -/

/-- A string. -/
def readText : Reader String := fun text =>
  match skipBlanks text with
  | '"' :: rest => (readString rest).map fun (value, rest) => (String.ofList value, rest)
  | _ => .error (refuse text)

/-- A whole number of at most 64 bits. -/
def readWhole : Reader Nat := fun text =>
  match skipBlanks text with
  | [] => .error .truncated
  | c :: rest =>
    if c = '-' || isDigit c then
      match readNumber (c :: rest) with
      | .error fault => .error fault
      | .ok (.whole n, rest) => .ok (n, rest)
      | .ok (.other, _) => .error .unfit
    else .error (refuse text)

/-- A value in brackets: `array` reads what follows a square bracket and `object` what follows a brace.
There must be room for one more bracket. -/
def readBracketed {α : Type} (room : Nat) (array object : Reader α) : Reader α := fun text =>
  match skipBlanks text with
  | '[' :: rest => if room = 0 then .error .malformed else array rest
  | '\x7b' :: rest => if room = 0 then .error .malformed else object rest
  | _ => .error (refuse text)

/-! ## Spans -/

/-- A member of a span. -/
def spanMember (state : Option Nat × Option Nat) (name : List Char) :
    Except Fault (Reader (Option Nat × Option Nat)) :=
  if name = "start".toList then
    if state.1.isSome then .error .unfit
    else .ok fun text => (readWhole text).map fun (n, rest) => ((some n, state.2), rest)
  else if name = "end".toList then
    if state.2.isSome then .error .unfit
    else .ok fun text => (readWhole text).map fun (n, rest) => ((state.1, some n), rest)
  else .error .unfit

/-- A span after an opening brace. -/
def spanObject : Reader Span := fun text =>
  match fieldsFrom spanMember (text.length + 1) true (none, none) text with
  | .error fault => .error fault
  | .ok ((some start, some stop), rest) => .ok (⟨start, stop⟩, rest)
  | .ok (_, _) => .error .unfit

/-- A span after an opening square bracket. -/
def spanArray : Reader Span := fun text => do
  let (start, text) ← nextItem true readWhole text
  let (stop, text) ← nextItem false readWhole text
  let text ← arrayEnd text
  return (⟨start, stop⟩, text)

/-- A span, with room for `room` more brackets. -/
def readSpan (room : Nat) : Reader Span :=
  readBracketed room spanArray spanObject

/-! ## Nodes -/

/-- The members of a node that have been read. -/
structure Members where
  nodeType : Option String := none
  label : Option String := none
  span : Option Span := none
  children : Option (List Snapshot) := none

/-- The snapshot of the members; only the children may be missing. -/
def Members.snapshot : Members → Except Fault Snapshot
  | ⟨some nodeType, some label, some span, children⟩ => .ok (.node ⟨nodeType, label, span⟩ (children.getD []))
  | _ => .error .unfit

/-- A member of a node, given how spans and children are read. -/
def nodeMember (span : Reader Span) (children : Reader (List Snapshot)) (state : Members)
    (name : List Char) : Except Fault (Reader Members) :=
  if name = "node_type".toList then
    if state.nodeType.isSome then .error .unfit
    else .ok fun text => (readText text).map fun (v, rest) => ({ state with nodeType := some v }, rest)
  else if name = "label".toList then
    if state.label.isSome then .error .unfit
    else .ok fun text => (readText text).map fun (v, rest) => ({ state with label := some v }, rest)
  else if name = "span".toList then
    if state.span.isSome then .error .unfit
    else .ok fun text => (span text).map fun (v, rest) => ({ state with span := some v }, rest)
  else if name = "children".toList then
    if state.children.isSome then .error .unfit
    else .ok fun text => (children text).map fun (v, rest) => ({ state with children := some v }, rest)
  else .ok fun text => (skipValue text).map fun rest => (state, rest)

/-- A node after an opening brace. -/
def nodeObject (span : Reader Span) (children : Reader (List Snapshot)) : Reader Snapshot := fun text =>
  match fieldsFrom (nodeMember span children) (text.length + 1) true {} text with
  | .error fault => .error fault
  | .ok (members, rest) => members.snapshot.map fun snapshot => (snapshot, rest)

/-- A node after an opening square bracket. -/
def nodeArray (span : Reader Span) (children : Reader (List Snapshot)) : Reader Snapshot := fun text => do
  let (nodeType, text) ← nextItem true readText text
  let (label, text) ← nextItem false readText text
  let (span, text) ← nextItem false span text
  let (more, text) ← itemStart false text
  let (below, text) ← if more then children text else pure ([], text)
  let text ← arrayEnd text
  return (.node ⟨nodeType, label, span⟩ below, text)

/-- Children, given how one is read, with room for `room` more brackets. -/
def readChildren (room : Nat) (node : Reader Snapshot) : Reader (List Snapshot) := fun text =>
  match skipBlanks text with
  | '[' :: rest => if room = 0 then .error .malformed else itemsFrom node (rest.length + 1) true rest
  | _ => .error (refuse text)

/-- A node, with room for `room` more brackets. -/
def readNode : (room : Nat) → Reader Snapshot
  | 0 => readBracketed 0 (fun _ => .error .malformed) (fun _ => .error .malformed)
  | room + 1 =>
    let span := readSpan room
    let children :=
      match room with
      | 0 => readChildren 0 (fun _ => .error .malformed)
      | inner + 1 => readChildren (inner + 1) (readNode inner)
    readBracketed (room + 1) (nodeArray span children) (nodeObject span children)

/-! ## The whole text -/

/-- How many brackets may be open at once. -/
def bracketLimit : Nat := 127

/-- The snapshot that a text spells; only blanks may follow it. -/
def ofJsonChars (text : List Char) : Except Fault Snapshot :=
  match readNode bracketLimit text with
  | .error fault => .error fault
  | .ok (snapshot, rest) => if (skipBlanks rest).isEmpty then .ok snapshot else .error .malformed

/-- The snapshot that a JSON text spells. -/
def ofJson (text : String) : Except Fault Snapshot :=
  ofJsonChars text.toList

end PegTree.Snapshot
