import PegTree.Grammar.Literal
import PegTree.Grammar.Token
import PegTree.Table.Basic

/-!
# `Proofs.SyntaxTree` — derivation trees of grammar text

The language of grammar texts, once and for all apart from how it is read:

```
document     = line { NEWLINE line }
line         = [ NAME ":=" alternatives | "|" alternatives ]
alternatives = sequence { "|" sequence }
sequence     = term { term }
term         = primary { "?" | "*" }
primary      = LITERAL | NAME | "(" alternatives ")"
```

There is one type for each line of it. A tree knows the symbols it derives (`symbols`) and the patterns and
rules it stands for (`pattern`, `patterns`, `declared`), each by recursion on the tree.

The language is unambiguous: a tree can be recovered from its symbols, even with other symbols behind
them, as long as these cannot continue it (`Document.symbols_injective`).
-/

namespace PegTree.Grammar

/-! ## Trees -/

/-- `?` or `*`. -/
inductive Suffix where
  | question
  | star

mutual
/-- `LITERAL | NAME | "(" alternatives ")"`. -/
inductive Primary where
  | literal (body : List Char)
  | name (text : List Char)
  | group (alternatives : Alternatives)
/-- A primary and its suffixes, the innermost first. -/
inductive Term where
  | mk (primary : Primary) (suffixes : List Suffix)
/-- `term { term }`. -/
inductive Sequence where
  | last (term : Term)
  | cons (term : Term) (rest : Sequence)
/-- `sequence { "|" sequence }`. -/
inductive Alternatives where
  | last (sequence : Sequence)
  | cons (sequence : Sequence) (rest : Alternatives)
end

/-- `[ NAME ":=" alternatives | "|" alternatives ]`. -/
inductive SourceLine where
  | blank
  | rule (name : List Char) (alternatives : Alternatives)
  | continuation (alternatives : Alternatives)

/-- `line { NEWLINE line }`; a text always has a first line, if only a blank one. -/
structure Document where
  first : SourceLine
  rest : List SourceLine

def Document.lines (document : Document) : List SourceLine :=
  document.first :: document.rest

/-! ## Symbols -/

def Suffix.symbol : Suffix → Symbol
  | .question => .question
  | .star => .star

mutual
/-- The yield of a primary. -/
def Primary.symbols : Primary → List Symbol
  | .literal body => [.literal body]
  | .name text => [.name text]
  | .group a => .openGroup :: (a.symbols ++ [.closeGroup])
def Term.symbols : Term → List Symbol
  | .mk p suffixes => p.symbols ++ suffixes.map Suffix.symbol
def Sequence.symbols : Sequence → List Symbol
  | .last t => t.symbols
  | .cons t s => t.symbols ++ s.symbols
def Alternatives.symbols : Alternatives → List Symbol
  | .last s => s.symbols
  | .cons s a => s.symbols ++ .pipe :: a.symbols
end

/-- The yield of a line, without the newline that may follow it. -/
def SourceLine.symbols : SourceLine → List Symbol
  | .blank => []
  | .rule name a => .name name :: .define :: a.symbols
  | .continuation a => .pipe :: a.symbols

/-- The yield of lines that each follow a newline. -/
def followingSymbols (lines : List SourceLine) : List Symbol :=
  lines.flatMap fun line => .newline :: line.symbols

/-- The yield of a document: `NEWLINE` between its lines. -/
def Document.symbols (document : Document) : List Symbol :=
  document.first.symbols ++ followingSymbols document.rest

/-! ## Patterns and rules -/

def Suffix.apply (p : Pattern) : Suffix → Pattern
  | .question => .opt p
  | .star => .rep p

mutual
/-- The pattern of a primary: literals are unescaped, and a group is `Pattern.oneOf`. -/
def Primary.pattern : Primary → Pattern
  | .literal body => .literal (String.ofList (unescape body))
  | .name text => .ref (String.ofList text)
  | .group a => .oneOf a.patterns
/-- The pattern of a term: suffixes apply from left to right. -/
def Term.pattern : Term → Pattern
  | .mk p suffixes => suffixes.foldl Suffix.apply p.pattern
def Sequence.patterns : Sequence → List Pattern
  | .last t => [t.pattern]
  | .cons t s => t.pattern :: s.patterns
/-- One pattern for each sequence; `Pattern.sequence` of one term is that term. -/
def Alternatives.patterns : Alternatives → List Pattern
  | .last s => [.sequence s.patterns]
  | .cons s a => .sequence s.patterns :: a.patterns
end

/-- The alternatives on the continuation lines before the next declaration. -/
def continued : List SourceLine → List Pattern
  | [] => []
  | .blank :: lines => continued lines
  | .continuation a :: lines => a.patterns ++ continued lines
  | .rule _ _ :: _ => []

/-- The rules that lines declare: `Pattern.oneOf` of the alternatives of the line and of those `continued` below
    it. -/
def declared : List SourceLine → List Rule
  | [] => []
  | .blank :: lines => declared lines
  | .continuation _ :: lines => declared lines
  | .rule name a :: lines => ⟨String.ofList name, .oneOf (a.patterns ++ continued lines)⟩ :: declared lines

/-- Whether a `.continuation` stands before the first `.rule`. -/
def leadsWithContinuation : List SourceLine → Bool
  | [] => false
  | .blank :: lines => leadsWithContinuation lines
  | .continuation _ :: _ => true
  | .rule _ _ :: _ => false

/-! ## What can follow -/

/-- FIRST of `term`. -/
def Symbol.startsTerm : Symbol → Bool
  | .literal _ => true
  | .name _ => true
  | .openGroup => true
  | _ => false

/-- The first symbol of `symbols`, if there is one, has `p x = false`. -/
def Avoids (p : Symbol → Bool) (symbols : List Symbol) : Prop :=
  ∀ x, symbols.head? = some x → p x = false

/-- What can follow a term within a sequence: a suffix, or FIRST of `term`. -/
def continuesSequence (x : Symbol) : Bool :=
  x.isSuffix || x.startsTerm

/-- What can follow a sequence within alternatives. -/
def continuesAlternatives (x : Symbol) : Bool :=
  continuesSequence x || x == .pipe

theorem Avoids.suffix {r : List Symbol} (h : Avoids continuesSequence r) :
    Avoids Symbol.isSuffix r := by
  intro x hx
  have hno := h x hx
  rw [continuesSequence, Bool.or_eq_false_iff] at hno
  exact hno.1

theorem Avoids.sequence {r : List Symbol} (h : Avoids continuesAlternatives r) :
    Avoids continuesSequence r := by
  intro x hx
  have hno := h x hx
  rw [continuesAlternatives, Bool.or_eq_false_iff] at hno
  exact hno.1

theorem Primary.symbols_eq_cons (p : Primary) :
    ∃ x xs, p.symbols = x :: xs ∧ x.startsTerm = true := by
  cases p with
  | literal body => exact ⟨_, _, rfl, rfl⟩
  | name text => exact ⟨_, _, rfl, rfl⟩
  | group a => exact ⟨_, _, rfl, rfl⟩

theorem Term.symbols_eq_cons (t : Term) : ∃ x xs, t.symbols = x :: xs ∧ x.startsTerm = true := by
  obtain ⟨p, suffixes⟩ := t
  obtain ⟨x, xs, hp, hx⟩ := p.symbols_eq_cons
  exact ⟨x, xs ++ suffixes.map Suffix.symbol, by rw [Term.symbols, hp]; rfl, hx⟩

/-- `s.symbols` starts with a symbol of FIRST of `term`; in particular it is not empty. -/
theorem Sequence.symbols_eq_cons (s : Sequence) : ∃ x xs, s.symbols = x :: xs ∧ x.startsTerm = true := by
  cases s with
  | last t => exact t.symbols_eq_cons
  | cons t s =>
      obtain ⟨x, xs, ht, hx⟩ := t.symbols_eq_cons
      exact ⟨x, xs ++ s.symbols, by rw [Sequence.symbols, ht]; rfl, hx⟩

theorem Symbol.not_isSuffix_of_startsTerm {x : Symbol} (h : x.startsTerm = true) :
    x.isSuffix = false := by
  cases x <;> simp_all [Symbol.startsTerm, Symbol.isSuffix]

theorem Sequence.avoids_suffix (s : Sequence) (r : List Symbol) :
    Avoids Symbol.isSuffix (s.symbols ++ r) := by
  obtain ⟨x, xs, hs, hx⟩ := s.symbols_eq_cons
  intro y hy
  rw [hs, List.cons_append, List.head?_cons, Option.some.injEq] at hy
  subst hy
  exact Symbol.not_isSuffix_of_startsTerm hx

theorem Sequence.ne_of_avoids {s : Sequence} {r r' : List Symbol} (h : Avoids continuesSequence r) :
    r ≠ s.symbols ++ r' := by
  rintro rfl
  obtain ⟨x, xs, hs, hx⟩ := s.symbols_eq_cons
  have hno := h x (by rw [hs]; rfl)
  rw [continuesSequence, hx, Bool.or_true] at hno
  cases hno

theorem avoids_pipe (r : List Symbol) : Avoids continuesSequence (.pipe :: r) := by
  intro x hx
  cases hx
  rfl

/-! ## Unambiguity -/

theorem Suffix.symbol_injective {s u : Suffix} (h : s.symbol = u.symbol) : s = u := by
  cases s <;> cases u <;> simp_all [Suffix.symbol]

/-- `ss.map Suffix.symbol ++ r` determines `ss` and `r`, if `r` avoids suffixes. -/
theorem suffixes_append_inj {ss us : List Suffix} {r r' : List Symbol}
    (hr : Avoids Symbol.isSuffix r) (hr' : Avoids Symbol.isSuffix r')
    (h : ss.map Suffix.symbol ++ r = us.map Suffix.symbol ++ r') : ss = us ∧ r = r' := by
  have hsuffix : ∀ u : Suffix, u.symbol.isSuffix = true := fun u => by cases u <;> rfl
  induction ss generalizing us with
  | nil =>
      cases us with
      | nil => exact ⟨rfl, h⟩
      | cons u us =>
          have hno := hr u.symbol (by rw [show r = _ from h]; rfl)
          rw [hsuffix] at hno
          cases hno
  | cons s ss ih =>
      cases us with
      | nil =>
          have hno := hr' s.symbol (by rw [show r' = _ from h.symm]; rfl)
          rw [hsuffix] at hno
          cases hno
      | cons u us =>
          simp only [List.map_cons, List.cons_append, List.cons.injEq] at h
          obtain ⟨hhead, htail⟩ := h
          obtain ⟨rfl, rfl⟩ := ih htail
          exact ⟨by rw [Suffix.symbol_injective hhead], rfl⟩

mutual
theorem Primary.append_inj : ∀ (p q : Primary) {r r' : List Symbol},
    p.symbols ++ r = q.symbols ++ r' → p = q ∧ r = r'
  | .literal body, q, r, r', h => by
      cases q with
      | literal body' =>
          simp only [Primary.symbols, List.cons_append, List.nil_append, List.cons.injEq,
            Symbol.literal.injEq] at h
          exact ⟨by rw [h.1], h.2⟩
      | name text => simp [Primary.symbols] at h
      | group a => simp [Primary.symbols] at h
  | .name text, q, r, r', h => by
      cases q with
      | literal body => simp [Primary.symbols] at h
      | name text' =>
          simp only [Primary.symbols, List.cons_append, List.nil_append, List.cons.injEq,
            Symbol.name.injEq] at h
          exact ⟨by rw [h.1], h.2⟩
      | group a => simp [Primary.symbols] at h
  | .group a, q, r, r', h => by
      cases q with
      | literal body => simp [Primary.symbols] at h
      | name text => simp [Primary.symbols] at h
      | group b =>
          simp only [Primary.symbols, List.cons_append, List.append_assoc, List.nil_append,
            List.cons.injEq, true_and] at h
          -- the bracket that closes the group continues no alternatives
          have hclose : ∀ r, Avoids continuesAlternatives (.closeGroup :: r) := fun _ x hx => by
            cases hx
            rfl
          obtain ⟨rfl, hrest⟩ := Alternatives.append_inj a b (hclose r) (hclose r') h
          exact ⟨rfl, (List.cons.inj hrest).2⟩
theorem Term.append_inj : ∀ (t u : Term) {r r' : List Symbol}, Avoids Symbol.isSuffix r →
    Avoids Symbol.isSuffix r' → t.symbols ++ r = u.symbols ++ r' → t = u ∧ r = r'
  | .mk p ss, .mk q us, r, r', hr, hr', h => by
      simp only [Term.symbols, List.append_assoc] at h
      obtain ⟨rfl, hsuffixes⟩ := Primary.append_inj p q h
      obtain ⟨rfl, rfl⟩ := suffixes_append_inj hr hr' hsuffixes
      exact ⟨rfl, rfl⟩
theorem Sequence.append_inj : ∀ (s u : Sequence) {r r' : List Symbol}, Avoids continuesSequence r →
    Avoids continuesSequence r' → s.symbols ++ r = u.symbols ++ r' → s = u ∧ r = r'
  | .last t, u, r, r', hr, hr', h => by
      cases u with
      | last t' =>
          obtain ⟨rfl, rfl⟩ := Term.append_inj t t' hr.suffix hr'.suffix h
          exact ⟨rfl, rfl⟩
      | cons t' u =>
          simp only [Sequence.symbols, List.append_assoc] at h
          obtain ⟨rfl, hrest⟩ := Term.append_inj t t' hr.suffix (u.avoids_suffix r') h
          exact absurd hrest (Sequence.ne_of_avoids hr)
  | .cons t s, u, r, r', hr, hr', h => by
      simp only [Sequence.symbols, List.append_assoc] at h
      cases u with
      | last t' =>
          obtain ⟨rfl, hrest⟩ := Term.append_inj t t' (s.avoids_suffix r) hr'.suffix h
          exact absurd hrest.symm (Sequence.ne_of_avoids hr')
      | cons t' u =>
          simp only [Sequence.symbols, List.append_assoc] at h
          obtain ⟨rfl, hrest⟩ := Term.append_inj t t' (s.avoids_suffix r) (u.avoids_suffix r') h
          obtain ⟨rfl, rfl⟩ := Sequence.append_inj s u hr hr' hrest
          exact ⟨rfl, rfl⟩
theorem Alternatives.append_inj : ∀ (a b : Alternatives) {r r' : List Symbol},
    Avoids continuesAlternatives r → Avoids continuesAlternatives r' →
    a.symbols ++ r = b.symbols ++ r' → a = b ∧ r = r'
  | .last s, b, r, r', hr, hr', h => by
      cases b with
      | last u =>
          obtain ⟨rfl, rfl⟩ := Sequence.append_inj s u hr.sequence hr'.sequence h
          exact ⟨rfl, rfl⟩
      | cons u b =>
          simp only [Alternatives.symbols, List.append_assoc, List.cons_append] at h
          obtain ⟨rfl, hrest⟩ := Sequence.append_inj s u hr.sequence (avoids_pipe _) h
          subst hrest
          exact absurd (hr .pipe rfl) (by decide)
  | .cons s a, b, r, r', hr, hr', h => by
      simp only [Alternatives.symbols, List.append_assoc, List.cons_append] at h
      cases b with
      | last u =>
          obtain ⟨rfl, hrest⟩ := Sequence.append_inj s u (avoids_pipe _) hr'.sequence h
          subst hrest
          exact absurd (hr' .pipe rfl) (by decide)
      | cons u b =>
          simp only [Alternatives.symbols, List.append_assoc, List.cons_append] at h
          obtain ⟨rfl, hrest⟩ := Sequence.append_inj s u (avoids_pipe _) (avoids_pipe _) h
          obtain ⟨rfl, rfl⟩ := Alternatives.append_inj a b hr hr' (List.cons.inj hrest).2
          exact ⟨rfl, rfl⟩
end

/-! ## Documents -/

/-- `.newline` is in none of the follow sets above. -/
theorem followingSymbols_avoids (lines : List SourceLine) :
    Avoids continuesAlternatives (followingSymbols lines) := by
  intro x hx
  cases lines with
  | nil => cases hx
  | cons line lines =>
      cases hx
      rfl

theorem followingSymbols_ne_cons {lines : List SourceLine} {x : Symbol} {xs : List Symbol}
    (hx : continuesAlternatives x = true) : followingSymbols lines ≠ x :: xs := by
  intro h
  have hno := followingSymbols_avoids lines x (by rw [h]; rfl)
  rw [hx] at hno
  cases hno

/-- `line.symbols ++ followingSymbols lines` determines `line`. -/
theorem SourceLine.append_inj (line line' : SourceLine) {lines lines' : List SourceLine}
    (h : line.symbols ++ followingSymbols lines = line'.symbols ++ followingSymbols lines') :
    line = line' ∧ followingSymbols lines = followingSymbols lines' := by
  have hend := followingSymbols_avoids lines
  have hend' := followingSymbols_avoids lines'
  cases line with
  | blank =>
      cases line' with
      | blank => exact ⟨rfl, h⟩
      | rule name a => exact absurd h (followingSymbols_ne_cons rfl)
      | continuation a => exact absurd h (followingSymbols_ne_cons rfl)
  | rule name a =>
      cases line' with
      | blank => exact absurd h.symm (followingSymbols_ne_cons rfl)
      | rule name' a' =>
          simp only [SourceLine.symbols, List.cons_append, List.cons.injEq, Symbol.name.injEq,
            true_and] at h
          obtain ⟨rfl, halternatives⟩ := h
          obtain ⟨rfl, hrest⟩ := Alternatives.append_inj a a' hend hend' halternatives
          exact ⟨rfl, hrest⟩
      | continuation a' => simp [SourceLine.symbols] at h
  | continuation a =>
      cases line' with
      | blank => exact absurd h.symm (followingSymbols_ne_cons rfl)
      | rule name' a' => simp [SourceLine.symbols] at h
      | continuation a' =>
          simp only [SourceLine.symbols, List.cons_append, List.cons.injEq, true_and] at h
          obtain ⟨rfl, hrest⟩ := Alternatives.append_inj a a' hend hend' h
          exact ⟨rfl, hrest⟩

theorem followingSymbols_injective {lines lines' : List SourceLine}
    (h : followingSymbols lines = followingSymbols lines') : lines = lines' := by
  induction lines generalizing lines' with
  | nil =>
      cases lines' with
      | nil => rfl
      | cons line' lines' => cases h
  | cons line lines ih =>
      cases lines' with
      | nil => cases h
      | cons line' lines' =>
          obtain ⟨rfl, hrest⟩ := SourceLine.append_inj line line' (List.cons.inj h).2
          rw [ih hrest]

/-- **Unambiguity**: `Document.symbols` is injective. -/
theorem Document.symbols_injective {document document' : Document}
    (h : document.symbols = document'.symbols) : document = document' := by
  obtain ⟨first, rest⟩ := document
  obtain ⟨first', rest'⟩ := document'
  obtain ⟨rfl, hrest⟩ := SourceLine.append_inj first first' h
  have hlines : rest = rest' := followingSymbols_injective hrest
  rw [hlines]

end PegTree.Grammar
