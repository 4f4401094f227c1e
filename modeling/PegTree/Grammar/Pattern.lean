/-!
# `Grammar.Pattern` — what a rule matches

Patterns are plain trees. A rule speaks of another rule by name only, so recursion between rules never
nests one pattern in another; names are resolved by the table of rules when a match runs.

## Contents

* `Pattern`, its induction principle and its decidable equality;
* `Pattern.parts` — the pattern and all its sub-patterns, outermost and leftmost first;
* `Pattern.references`, `Pattern.literals` — the names and the literal values in that order;
* `Rule` — a named pattern.
-/

namespace PegTree

/-- What a rule matches. -/
inductive Pattern where
  /-- Matches its own text. -/
  | literal (value : String)
  /-- Matches what the named rule matches. -/
  | ref (name : String)
  /-- Matches each part in order. -/
  | seq (parts : List Pattern)
  /-- Matches what the first alternative that matches does. -/
  | choice (alternatives : List Pattern)
  /-- Matches once if it can. -/
  | opt (body : Pattern)
  /-- Matches as often as it can. -/
  | rep (body : Pattern)
  deriving Repr, Inhabited

namespace Pattern

/-! ## Induction -/

/-- **Induction on patterns.** The parts of a sequence and the alternatives of a choice are reached by
    membership, so no second statement about lists of patterns is needed. -/
@[elab_as_elim]
theorem inductionOn {motive : Pattern → Prop} (p : Pattern)
    (literal : ∀ value, motive (.literal value)) (ref : ∀ name, motive (.ref name))
    (seq : ∀ ps, (∀ p ∈ ps, motive p) → motive (.seq ps))
    (choice : ∀ ps, (∀ p ∈ ps, motive p) → motive (.choice ps))
    (opt : ∀ p, motive p → motive (.opt p)) (rep : ∀ p, motive p → motive (.rep p)) : motive p := by
  refine @Pattern.rec motive (fun ps => ∀ p ∈ ps, motive p) literal ref seq choice opt rep ?_ ?_ p
  · intro q hq
    exact absurd hq List.not_mem_nil
  · intro p ps hp hps q hq
    rcases List.mem_cons.mp hq with rfl | hq
    · exact hp
    · exact hps q hq

/-! ## Equality -/

mutual
/-- Decides equality of patterns. -/
def decEq : (p q : Pattern) → Decidable (p = q)
  | .literal v, .literal w =>
    if h : v = w then .isTrue (by rw [h]) else .isFalse (by simpa using h)
  | .ref v, .ref w =>
    if h : v = w then .isTrue (by rw [h]) else .isFalse (by simpa using h)
  | .seq ps, .seq qs =>
    match decEqList ps qs with
    | .isTrue h => .isTrue (by rw [h])
    | .isFalse h => .isFalse (by simpa using h)
  | .choice ps, .choice qs =>
    match decEqList ps qs with
    | .isTrue h => .isTrue (by rw [h])
    | .isFalse h => .isFalse (by simpa using h)
  | .opt p, .opt q =>
    match decEq p q with
    | .isTrue h => .isTrue (by rw [h])
    | .isFalse h => .isFalse (by simpa using h)
  | .rep p, .rep q =>
    match decEq p q with
    | .isTrue h => .isTrue (by rw [h])
    | .isFalse h => .isFalse (by simpa using h)
  | .literal _, .ref _ | .literal _, .seq _ | .literal _, .choice _ | .literal _, .opt _
  | .literal _, .rep _ | .ref _, .literal _ | .ref _, .seq _ | .ref _, .choice _ | .ref _, .opt _
  | .ref _, .rep _ | .seq _, .literal _ | .seq _, .ref _ | .seq _, .choice _ | .seq _, .opt _
  | .seq _, .rep _ | .choice _, .literal _ | .choice _, .ref _ | .choice _, .seq _
  | .choice _, .opt _ | .choice _, .rep _ | .opt _, .literal _ | .opt _, .ref _ | .opt _, .seq _
  | .opt _, .choice _ | .opt _, .rep _ | .rep _, .literal _ | .rep _, .ref _ | .rep _, .seq _
  | .rep _, .choice _ | .rep _, .opt _ => .isFalse (by simp)
/-- Decides equality of lists of patterns. -/
def decEqList : (ps qs : List Pattern) → Decidable (ps = qs)
  | [], [] => .isTrue rfl
  | [], _ :: _ => .isFalse (by simp)
  | _ :: _, [] => .isFalse (by simp)
  | p :: ps, q :: qs =>
    match decEq p q, decEqList ps qs with
    | .isTrue h, .isTrue hs => .isTrue (by rw [h, hs])
    | .isFalse h, _ => .isFalse (by simp [h])
    | _, .isFalse hs => .isFalse (by simp [hs])
end

instance : DecidableEq Pattern := decEq

/-! ## Sub-patterns -/

mutual
/-- The pattern and all its sub-patterns, each before its own parts, left to right. -/
def parts : Pattern → List Pattern
  | p@(.literal _) => [p]
  | p@(.ref _) => [p]
  | p@(.seq ps) => p :: partsList ps
  | p@(.choice ps) => p :: partsList ps
  | p@(.opt q) => p :: parts q
  | p@(.rep q) => p :: parts q
/-- The sub-patterns of a list of patterns, left to right. -/
def partsList : List Pattern → List Pattern
  | [] => []
  | p :: ps => parts p ++ partsList ps
end

theorem mem_partsList {q : Pattern} {ps : List Pattern} :
    q ∈ partsList ps ↔ ∃ p ∈ ps, q ∈ p.parts := by
  induction ps with
  | nil => simp [partsList]
  | cons p ps ih => simp [partsList, ih]

/-- The name a pattern consists of, if it is a reference. -/
def reference? : Pattern → Option String
  | .ref name => some name
  | _ => none

/-- The value a pattern consists of, if it is a literal. -/
def literal? : Pattern → Option String
  | .literal value => some value
  | _ => none

/-- The names a pattern refers to, in the order of its parts. -/
def references (p : Pattern) : List String :=
  p.parts.filterMap reference?

/-- The literal values of a pattern, in the order of its parts. -/
def literals (p : Pattern) : List String :=
  p.parts.filterMap literal?

/-! ## Unwrapped lists -/

/-- The terms in sequence; a single term stands for itself. -/
def sequence : List Pattern → Pattern
  | [p] => p
  | ps => .seq ps

/-- One of the alternatives; a single alternative stands for itself. -/
def oneOf : List Pattern → Pattern
  | [p] => p
  | ps => .choice ps

end Pattern

/-- A named pattern. -/
structure Rule where
  name : String
  pattern : Pattern
  deriving DecidableEq, Repr, Inhabited

end PegTree
