import Mathlib.Logic.Relation
import PegTree.Proofs.Reading
import PegTree.Proofs.Segments

/-!
# `Proofs.Relayout` — the layout of a grammar text does not matter

Blanks and comments may stand between any two symbols, a newline may be doubled, and a line may be broken before a
pipe that is in no group. `Edit` says of two texts that one is the other with something of that kind put in, at a
place given by the tokens of the text.

* **Blanks and comments leave the symbols alone** (`Place.quiet`), wherever they are put in: a place at a token is
  a place between two pieces (`Proofs.Segments`).
* **A newline adds a symbol** (`Place.newline`), so the text has another document. It has one, because a document
  can be broken at such a place (`Document.breaks_before_pipe` and its neighbours), and that document has the same
  rules: a line is the same as its two halves, the second as a continuation (`SameRules`).
* A text that declares rules declares them after any edit (`Edit.declares`), and so after any number of them
  (`declares_of_edits`). It compiles to the same table (`compile_edited`).
-/

namespace PegTree.Grammar

open Text

/-! ## Brackets -/

/-- Equally many `.openGroup` and `.closeGroup`. -/
def Balanced (symbols : List Symbol) : Prop :=
  symbols.count .openGroup = symbols.count .closeGroup

instance (symbols : List Symbol) : Decidable (Balanced symbols) :=
  inferInstanceAs (Decidable (_ = _))

/-- Where `x` stands in `as ++ bs`: `mid` is what lies between it and the border. -/
theorem append_eq_append_cons {α : Type} {as bs xs ys : List α} {x : α} (h : as ++ bs = xs ++ x :: ys) :
    (∃ mid, as = xs ++ x :: mid ∧ ys = mid ++ bs) ∨ ∃ mid, xs = as ++ mid ∧ bs = mid ++ x :: ys := by
  rcases List.append_eq_append_iff.mp h with ⟨mid, hxs, hbs⟩ | ⟨mid, has, hcons⟩
  · exact Or.inr ⟨mid, hxs, hbs⟩
  · cases mid with
    | nil => exact Or.inr ⟨[], by simpa using has.symm, hcons.symm⟩
    | cons y mid =>
        obtain ⟨rfl, hys⟩ := List.cons.inj hcons
        exact Or.inl ⟨mid, has, hys⟩

/-- **`Nests depth symbols`**: one line, `Balanced`, and before every pipe at least `depth` more groups are opened
    than closed. -/
structure Nests (depth : Nat) (symbols : List Symbol) : Prop where
  oneLine : Symbol.newline ∉ symbols
  balanced : Balanced symbols
  pipes : ∀ before after, symbols = before ++ .pipe :: after →
    before.count .closeGroup + depth ≤ before.count .openGroup

section Nests

variable {depth : Nat} {xs ys : List Symbol}

theorem nests_plain (h : ∀ x ∈ xs, x ≠ .newline ∧ x ≠ .pipe ∧ x ≠ .openGroup ∧ x ≠ .closeGroup) :
    Nests depth xs where
  oneLine hmem := (h _ hmem).1 rfl
  balanced := by
    have hopen : Symbol.openGroup ∉ xs := fun hmem => (h _ hmem).2.2.1 rfl
    have hclose : Symbol.closeGroup ∉ xs := fun hmem => (h _ hmem).2.2.2 rfl
    unfold Balanced
    rw [List.count_eq_zero.mpr hopen, List.count_eq_zero.mpr hclose]
  pipes before after heq := by
    have hmem : Symbol.pipe ∈ xs := by
      rw [heq]
      exact List.mem_append_right _ List.mem_cons_self
    exact absurd rfl (h _ hmem).2.1

theorem Nests.append (hxs : Nests depth xs) (hys : Nests depth ys) : Nests depth (xs ++ ys) where
  oneLine hmem := (List.mem_append.mp hmem).elim hxs.oneLine hys.oneLine
  balanced := by
    have hx := hxs.balanced
    have hy := hys.balanced
    unfold Balanced at *
    rw [List.count_append, List.count_append]
    omega
  pipes before after h := by
    rcases append_eq_append_cons h with ⟨mid, hmid, _⟩ | ⟨mid, rfl, hmid⟩
    · exact hxs.pipes before mid hmid
    · have hx := hxs.balanced
      have hy := hys.pipes mid after hmid
      unfold Balanced at hx
      rw [List.count_append, List.count_append]
      omega

theorem Nests.group (h : Nests depth xs) : Nests (depth + 1) (.openGroup :: (xs ++ [.closeGroup])) where
  oneLine := by
    have hx := h.oneLine
    simpa using hx
  balanced := by
    have hx := h.balanced
    unfold Balanced at *
    simp [List.count_append, hx]
  pipes before after heq := by
    cases before with
    | nil => cases heq
    | cons x before =>
        obtain ⟨rfl, hrest⟩ := List.cons.inj heq
        rcases append_eq_append_cons hrest with ⟨mid, hmid, _⟩ | ⟨mid, rfl, hmid⟩
        · have hdeep := h.pipes before mid hmid
          rw [List.count_cons_of_ne (by decide), List.count_cons_self]
          omega
        · -- the closing bracket is no pipe
          cases mid with
          | nil => cases hmid
          | cons y mid => simp at hmid

theorem Nests.mono {depth' : Nat} (h : Nests depth xs) (hle : depth' ≤ depth) : Nests depth' xs where
  oneLine := h.oneLine
  balanced := h.balanced
  pipes before after heq := by
    have hdeep := h.pipes before after heq
    omega

theorem nests_pipe : Nests 0 [.pipe] where
  oneLine := by decide
  balanced := rfl
  pipes before after heq := by
    cases before with
    | nil => exact Nat.le_refl _
    | cons x before => simp at heq

end Nests

theorem Suffix.nests (depth : Nat) (suffixes : List Suffix) :
    Nests depth (suffixes.map Suffix.symbol) := by
  refine nests_plain fun x hx => ?_
  obtain ⟨s, _, rfl⟩ := List.mem_map.mp hx
  cases s <;> decide

-- Only alternatives have a pipe of their own; inside a primary every pipe is in the brackets of a group.
mutual
theorem Primary.nests : ∀ p : Primary, Nests 1 p.symbols
  | .literal body => nests_plain (by simp [Primary.symbols])
  | .name text => nests_plain (by simp [Primary.symbols])
  | .group a => a.nests.group
theorem Term.nests : ∀ t : Term, Nests 1 t.symbols
  | .mk p suffixes => p.nests.append (Suffix.nests 1 suffixes)
theorem Sequence.nests : ∀ s : Sequence, Nests 1 s.symbols
  | .last t => t.nests
  | .cons t s => t.nests.append s.nests
theorem Alternatives.nests : ∀ a : Alternatives, Nests 0 a.symbols
  | .last s => s.nests.mono (Nat.zero_le _)
  | .cons s a => (s.nests.mono (Nat.zero_le _)).append (nests_pipe.append a.nests)
end

theorem SourceLine.nests (line : SourceLine) : Nests 0 line.symbols := by
  cases line with
  | blank => exact nests_plain (by simp [SourceLine.symbols])
  | rule name a =>
      have hopening : Nests 0 [.name name, .define] := nests_plain (by simp)
      exact hopening.append a.nests
  | continuation a => exact nests_pipe.append a.nests

theorem Balanced.of_append {xs ys : List Symbol} (h : Balanced (xs ++ ys)) (hxs : Balanced xs) :
    Balanced ys := by
  unfold Balanced at *
  rw [List.count_append, List.count_append] at h
  omega

/-- The pipes of `s.symbols` stand at depth `1` or more, so the symbols before one of them are not `Balanced`. -/
theorem Sequence.not_balanced {s : Sequence} {xs ys : List Symbol} (h : s.symbols = xs ++ .pipe :: ys) :
    ¬ Balanced xs := by
  intro hbalanced
  have hdeep := s.nests.pipes xs ys h
  unfold Balanced at hbalanced
  omega

/-- **Alternatives split at a pipe of depth `0`**: `Balanced xs` gives trees for `xs` and `ys`, with the patterns
    divided accordingly. -/
theorem Alternatives.cut : ∀ (a : Alternatives) {xs ys : List Symbol}, a.symbols = xs ++ .pipe :: ys →
    Balanced xs → ∃ b c : Alternatives, b.symbols = xs ∧ c.symbols = ys ∧ a.patterns = b.patterns ++ c.patterns
  | .last s, xs, ys, h, hbalanced => absurd hbalanced (Sequence.not_balanced h)
  | .cons s a, xs, ys, h, hbalanced => by
      rcases append_eq_append_cons h with ⟨mid, hmid, _⟩ | ⟨mid, rfl, hmid⟩
      · exact absurd hbalanced (Sequence.not_balanced hmid)
      · cases mid with
        | nil =>
            obtain ⟨-, rfl⟩ := List.cons.inj hmid
            exact ⟨.last s, a, (List.append_nil _).symm, rfl, rfl⟩
        | cons x mid =>
            -- the pipe is a later one
            obtain ⟨rfl, hmore⟩ := List.cons.inj hmid
            have hrest : Balanced mid := by
              have hpipe : Balanced (.pipe :: mid) := hbalanced.of_append s.nests.balanced
              exact hpipe.of_append nests_pipe.balanced
            obtain ⟨b, c, rfl, rfl, hpatterns⟩ := Alternatives.cut a hmore hrest
            refine ⟨.cons s b, c, rfl, rfl, ?_⟩
            rw [Alternatives.patterns, hpatterns]
            rfl

/-! ## Lines with the same rules -/

/-- **`SameRules lines lines'`**: equal `continued`, `declared` and `leadsWithContinuation`. It is a congruence
    under lines in front (`SameRules.cons`). -/
structure SameRules (lines lines' : List SourceLine) : Prop where
  continued_eq : continued lines = continued lines'
  declared_eq : declared lines = declared lines'
  leads_eq : leadsWithContinuation lines = leadsWithContinuation lines'

theorem SameRules.cons {lines lines' : List SourceLine} (h : SameRules lines lines') (line : SourceLine) :
    SameRules (line :: lines) (line :: lines') := by
  obtain ⟨hcontinued, hdeclared, hleads⟩ := h
  cases line with
  | blank => exact ⟨hcontinued, hdeclared, hleads⟩
  | rule name a =>
      refine ⟨rfl, ?_, rfl⟩
      rw [declared, declared, hcontinued, hdeclared]
  | continuation a =>
      refine ⟨?_, hdeclared, rfl⟩
      rw [continued, continued, hcontinued]

theorem SameRules.append {lines lines' : List SourceLine} (h : SameRules lines lines')
    (before : List SourceLine) : SameRules (before ++ lines) (before ++ lines') := by
  induction before with
  | nil => exact h
  | cons line before ih => exact ih.cons line

theorem sameRules_blank (lines : List SourceLine) : SameRules (.blank :: lines) lines :=
  ⟨rfl, rfl, rfl⟩

section Halves

variable {a b c : Alternatives} (h : a.patterns = b.patterns ++ c.patterns) (lines : List SourceLine)

include h

/-- `name := b` and `| c` below it, against `name := a` with `a.patterns = b.patterns ++ c.patterns`. -/
theorem sameRules_rule (name : List Char) :
    SameRules (.rule name b :: .continuation c :: lines) (.rule name a :: lines) := by
  refine ⟨rfl, ?_, rfl⟩
  simp only [declared, continued]
  rw [h, List.append_assoc]

theorem sameRules_continuation :
    SameRules (.continuation b :: .continuation c :: lines) (.continuation a :: lines) := by
  refine ⟨?_, rfl, rfl⟩
  simp only [continued]
  rw [h, List.append_assoc]

end Halves

/-! ## Breaking a document -/

namespace Document

/-- `d` and `e` with a newline between them. -/
def append (d e : Document) : Document :=
  ⟨d.first, d.rest ++ e.lines⟩

theorem symbols_append (d e : Document) : (d.append e).symbols = d.symbols ++ .newline :: e.symbols := by
  unfold append Document.symbols Document.lines followingSymbols
  simp

def blank : Document :=
  ⟨.blank, []⟩

/-- **`document.Breaks xs ys`**: `xs` and `ys` are yields of documents, whose lines one behind the other have the
    `SameRules` as `document`. -/
def Breaks (document : Document) (xs ys : List Symbol) : Prop :=
  ∃ d e : Document, d.symbols = xs ∧ e.symbols = ys ∧ SameRules (d.lines ++ e.lines) document.lines

theorem breaks_start (document : Document) : document.Breaks [] document.symbols :=
  ⟨blank, document, rfl, rfl, sameRules_blank _⟩

theorem breaks_end (document : Document) : document.Breaks document.symbols [] := by
  refine ⟨document, blank, rfl, rfl, ?_⟩
  have hlast := (sameRules_blank []).append document.lines
  rwa [List.append_nil] at hlast

/-- A `.newline` in the yield is one between lines, so the document is `Document.append` of two. -/
theorem exists_append {first : SourceLine} {rest : List SourceLine} {xs ys : List Symbol}
    (h : Document.symbols ⟨first, rest⟩ = xs ++ .newline :: ys) :
    ∃ d e : Document, d.symbols = xs ∧ e.symbols = ys ∧ d.lines ++ e.lines = first :: rest := by
  induction rest generalizing first xs with
  | nil =>
      have hmem : Symbol.newline ∈ first.symbols := by
        rw [Document.symbols, followingSymbols, List.flatMap_nil, List.append_nil] at h
        rw [h]
        exact List.mem_append_right _ List.mem_cons_self
      exact absurd hmem first.nests.oneLine
  | cons next rest ih =>
      rcases append_eq_append_cons h with ⟨mid, hmid, _⟩ | ⟨mid, rfl, hmid⟩
      · have hmem : Symbol.newline ∈ first.symbols := by
          rw [hmid]
          exact List.mem_append_right _ List.mem_cons_self
        exact absurd hmem first.nests.oneLine
      · cases mid with
        | nil =>
            refine ⟨⟨first, []⟩, ⟨next, rest⟩, rfl, ?_, rfl⟩
            exact (List.cons.inj hmid).2
        | cons x mid =>
            obtain ⟨rfl, hmore⟩ := List.cons.inj hmid
            obtain ⟨d, e, rfl, rfl, hlines⟩ := ih hmore
            refine ⟨⟨first, d.lines⟩, e, rfl, rfl, ?_⟩
            rw [← hlines]
            rfl

theorem breaks_before_newline {document : Document} {xs ys : List Symbol}
    (h : document.symbols = xs ++ .newline :: ys) : document.Breaks xs (.newline :: ys) := by
  obtain ⟨d, e, rfl, rfl, hlines⟩ := exists_append h
  refine ⟨d, blank.append e, rfl, symbols_append _ _, ?_⟩
  have hblank := (sameRules_blank e.lines).append d.lines
  rwa [hlines] at hblank

theorem breaks_after_newline {document : Document} {xs ys : List Symbol}
    (h : document.symbols = xs ++ .newline :: ys) : document.Breaks (xs ++ [.newline]) ys := by
  obtain ⟨d, e, rfl, rfl, hlines⟩ := exists_append h
  refine ⟨d.append blank, e, symbols_append _ _, rfl, ?_⟩
  have hblank := (sameRules_blank e.lines).append d.lines
  rwa [hlines, List.append_cons] at hblank

/-- Splitting `line` at a pipe of depth `0` gives a `half` and a `.continuation`, with `SameRules` together. -/
theorem exists_halves {line : SourceLine} {xs ys : List Symbol} (h : line.symbols = xs ++ .pipe :: ys)
    (hbalanced : Balanced xs) :
    ∃ (half : SourceLine) (c : Alternatives), half.symbols = xs ∧ c.symbols = ys ∧
      ∀ lines, SameRules (half :: .continuation c :: lines) (line :: lines) := by
  cases line with
  | blank => simp [SourceLine.symbols] at h
  | rule name a =>
      have hopening : [.name name, .define] ++ a.symbols = xs ++ .pipe :: ys := h
      rcases append_eq_append_cons hopening with ⟨mid, hmid, _⟩ | ⟨mid, rfl, hmid⟩
      · have hmem : Symbol.pipe ∈ [.name name, .define] := by
          rw [hmid]
          exact List.mem_append_right _ List.mem_cons_self
        simp at hmem
      · have hbody : Balanced mid := hbalanced.of_append rfl
        obtain ⟨b, c, rfl, rfl, hpatterns⟩ := a.cut hmid hbody
        exact ⟨.rule name b, c, rfl, rfl, fun lines => sameRules_rule hpatterns lines name⟩
  | continuation a =>
      cases xs with
      | nil =>
          -- the pipe opens the line
          obtain ⟨-, rfl⟩ := List.cons.inj h
          exact ⟨.blank, a, rfl, rfl, fun lines => sameRules_blank _⟩
      | cons x xs =>
          obtain ⟨rfl, hmore⟩ := List.cons.inj h
          have hbody : Balanced xs := hbalanced.of_append nests_pipe.balanced
          obtain ⟨b, c, rfl, rfl, hpatterns⟩ := a.cut hmore hbody
          exact ⟨.continuation b, c, rfl, rfl, fun lines => sameRules_continuation hpatterns lines⟩

/-- **`Breaks` before a pipe of depth `0`.** -/
theorem breaks_before_pipe {first : SourceLine} {rest : List SourceLine} {xs ys : List Symbol}
    (h : Document.symbols ⟨first, rest⟩ = xs ++ .pipe :: ys) (hbalanced : Balanced xs) :
    Breaks ⟨first, rest⟩ xs (.pipe :: ys) := by
  induction rest generalizing first xs with
  | nil =>
      rw [Document.symbols, followingSymbols, List.flatMap_nil, List.append_nil] at h
      obtain ⟨half, c, rfl, rfl, hsame⟩ := exists_halves h hbalanced
      refine ⟨⟨half, []⟩, ⟨.continuation c, []⟩, List.append_nil _, List.append_nil _, hsame []⟩
  | cons next rest ih =>
      rcases append_eq_append_cons h with ⟨mid, hmid, rfl⟩ | ⟨mid, rfl, hmid⟩
      · obtain ⟨half, c, rfl, rfl, hsame⟩ := exists_halves hmid hbalanced
        exact ⟨⟨half, []⟩, ⟨.continuation c, next :: rest⟩, List.append_nil _, rfl, hsame _⟩
      · -- the pipe is on a later line, and the lines up to there are balanced
        cases mid with
        | nil => cases hmid
        | cons x mid =>
            obtain ⟨rfl, hmore⟩ := List.cons.inj hmid
            have hrest : Balanced mid := by
              have hnewline : Balanced ([.newline] ++ mid) := hbalanced.of_append first.nests.balanced
              exact hnewline.of_append rfl
            obtain ⟨d, e, rfl, hsymbols, hsame⟩ := ih hmore hrest
            exact ⟨⟨first, d.lines⟩, e, rfl, hsymbols, hsame.cons first⟩

end Document

/-! ## Places in a text -/

/-- **`Place before after ts us`**: between the tokens `ts` of `before` and `us` of `after`, with each text cut on
    its own. -/
structure Place (before after : List Char) (ts us : List Token) : Prop where
  cutsBefore : Cuts after 0 before ts
  cutsAfter : Cuts [] (utf8Length before) after us

section Place

variable {before after ins : List Char} {ts us : List Token}

theorem place_textStart (h : tokenize after = .ok us) : Place [] after [] us :=
  ⟨.nil, cuts_of_tokenize h⟩

theorem place_textEnd (h : tokenize before = .ok ts) : Place before [] ts [] :=
  ⟨cuts_of_tokenize h, .nil⟩

theorem place_tokenStart {token : Token} (h : tokenize (before ++ after) = .ok (ts ++ token :: us))
    (hplace : token.span.start = utf8Length before) : Place before after ts (token :: us) := by
  obtain ⟨_, hbefore, hafter⟩ := (cuts_of_tokenize h).split_start hplace
  exact ⟨hbefore, hafter⟩

theorem place_tokenStop {token : Token} (h : tokenize (before ++ after) = .ok (ts ++ token :: us))
    (hplace : token.span.stop = utf8Length before) : Place before after (ts ++ [token]) us := by
  obtain ⟨hbefore, hafter⟩ := (cuts_of_tokenize h).split_stop hplace
  exact ⟨hbefore, hafter⟩

theorem Place.tokenize_eq (h : Place before after ts us) : tokenize (before ++ after) = .ok (ts ++ us) := by
  have hbefore : Cuts (after ++ []) 0 before ts := by
    rw [List.append_nil]
    exact h.cutsBefore
  have hafter : Cuts [] (0 + utf8Length before) after us := by
    rw [Nat.zero_add]
    exact h.cutsAfter
  exact tokenize_of_cuts (hbefore.append hafter)

/-- Text put in at the place shifts `us`; their symbols stay. -/
theorem Place.insert (h : Place before after ts us) {tokens : List Token}
    (hins : Cuts after 0 (before ++ ins) tokens) :
    ∃ us', Place (before ++ ins) after tokens us' ∧ us'.map (·.symbol) = us.map (·.symbol) := by
  obtain ⟨us', hafter, hsymbols⟩ := h.cutsAfter.shift (utf8Length (before ++ ins))
  exact ⟨us', ⟨hins, hafter⟩, hsymbols⟩

/-- **Text that has `Cuts` with no tokens can be put in at every `Place`**: the symbols stay. -/
theorem Place.quiet (h : Place before after ts us) (hins : ∀ offset, Cuts after offset ins []) :
    ∃ tokens, tokenize (before ++ ins ++ after) = .ok tokens ∧
      tokens.map (·.symbol) = (ts ++ us).map (·.symbol) := by
  obtain ⟨us', hplace, hsymbols⟩ := h.insert (h.cutsBefore.append_quiet hins)
  refine ⟨ts ++ us', hplace.tokenize_eq, ?_⟩
  rw [List.map_append, List.map_append, hsymbols]

/-- **`'\n'` can be put in at every `Place`**, and adds `.newline` to the symbols there. -/
theorem Place.newline (h : Place before after ts us) :
    ∃ tokens, tokenize (before ++ ['\n'] ++ after) = .ok tokens ∧
      tokens.map (·.symbol) = ts.map (·.symbol) ++ .newline :: us.map (·.symbol) := by
  have hbefore : Cuts (['\n'] ++ after) 0 before ts := h.cutsBefore.before_newline
  have hbreak : Cuts after (0 + utf8Length before) ['\n'] [⟨.newline, 0 + utf8Length before⟩] :=
    @Cuts.symbol after _ .newline [] [] trivial (by rintro _ ⟨⟩) .nil
  obtain ⟨us', hplace, hsymbols⟩ := h.insert (hbefore.append hbreak)
  refine ⟨_, hplace.tokenize_eq, ?_⟩
  rw [List.map_append, List.map_append, hsymbols, List.append_assoc]
  rfl

end Place

/-! ## What a text declares -/

theorem decodable_iff (tokens : List Token) :
    Decodable tokens ↔ ∀ body, .literal body ∈ tokens.map (·.symbol) → Decodes body (unescape body) := by
  constructor
  · intro h body hmem
    obtain ⟨token, htoken, hbody⟩ := List.mem_map.mp hmem
    exact h token htoken body hbody
  · intro h token htoken body hbody
    exact h body (List.mem_map.mpr ⟨token, htoken, hbody⟩)

section Declares

variable {before after ins : List Char} {ts us : List Token} {rules : List Rule}

theorem Declares.tokenized {text : List Char} (h : Declares text rules) :
    ∃ tokens, tokenize text = .ok tokens := by
  obtain ⟨_, ⟨tokens, htokens, _⟩, _⟩ := h
  exact ⟨tokens, htokens⟩

theorem Declares.insert_quiet (h : Declares (before ++ after) rules) (hplace : Place before after ts us)
    (hins : ∀ offset, Cuts after offset ins []) : Declares (before ++ ins ++ after) rules := by
  obtain ⟨document, ⟨tokens, htokens, hdecodable, hsymbols⟩, hdeclared⟩ := h
  obtain rfl := Except.ok.inj (htokens.symm.trans hplace.tokenize_eq)
  obtain ⟨tokens', htokens', hsame⟩ := hplace.quiet hins
  refine ⟨document, ⟨tokens', htokens', ?_, hsymbols.trans hsame.symm⟩, hdeclared⟩
  rw [decodable_iff, hsame, ← decodable_iff]
  exact hdecodable

/-- A newline keeps `Declares` where `Document.Breaks` holds. -/
theorem Declares.insert_newline (h : Declares (before ++ after) rules) (hplace : Place before after ts us)
    (hbreaks : ∀ document : Document,
      document.symbols = ts.map (·.symbol) ++ us.map (·.symbol) →
      document.Breaks (ts.map (·.symbol)) (us.map (·.symbol))) :
    Declares (before ++ ['\n'] ++ after) rules := by
  obtain ⟨document, ⟨tokens, htokens, hdecodable, hsymbols⟩, hleads, hdeclared, hsome⟩ := h
  obtain rfl := Except.ok.inj (htokens.symm.trans hplace.tokenize_eq)
  rw [List.map_append] at hsymbols
  obtain ⟨d, e, hd, he, hsame⟩ := hbreaks document hsymbols
  obtain ⟨tokens', htokens', hsymbols'⟩ := hplace.newline
  have hderived : Derived (before ++ ['\n'] ++ after) (d.append e) := by
    refine ⟨tokens', htokens', ?_, ?_⟩
    · rw [decodable_iff, List.map_append] at hdecodable
      rw [decodable_iff, hsymbols']
      intro body hmem
      refine hdecodable body ?_
      simpa using hmem
    · rw [Document.symbols_append, hd, he, hsymbols']
  have hlines : (d.append e).lines = d.lines ++ e.lines := rfl
  refine ⟨d.append e, hderived, ?_, ?_, hsome⟩
  · rw [hlines, hsame.leads_eq, hleads]
  · rw [hlines, hsame.declared_eq, hdeclared]

end Declares

/-! ## Edits -/

theorem cuts_comment {run tail : List Char} (hrun : '\n' ∉ run) (hend : EndsLine tail) (offset : Nat) :
    Cuts tail offset ('#' :: run) [] := by
  have hcomment : Cuts tail offset ('#' :: run ++ []) [] := .comment hrun hend .nil
  rwa [List.append_nil] at hcomment

theorem cuts_blanks {run : List Char} (hrun : ∀ c ∈ run, isBlank c = true) (tail : List Char)
    (offset : Nat) : Cuts tail offset run [] := by
  have hblanks : Cuts tail offset (run ++ []) [] := .blanks hrun .nil
  rwa [List.append_nil] at hblanks

/-- **One edit of the layout**, in terms of the tokens of the text: blanks beside a token, a comment before a
    newline or at the end of the text, a newline beside another or at an end of the text, and a newline before a
    pipe of depth `0`. -/
inductive Edit : List Char → List Char → Prop where
  | blanks {before after run : List Char} {tokens : List Token} {token : Token}
      (htokens : tokenize (before ++ after) = .ok tokens) (hmem : token ∈ tokens)
      (hplace : token.span.start = utf8Length before ∨ token.span.stop = utf8Length before)
      (hrun : ∀ c ∈ run, isBlank c = true) :
      Edit (before ++ after) (before ++ run ++ after)
  | comment {before after run : List Char} {tokens : List Token} {token : Token}
      (htokens : tokenize (before ++ after) = .ok tokens) (hmem : token ∈ tokens)
      (hsymbol : token.symbol = .newline) (hplace : token.span.start = utf8Length before)
      (hrun : '\n' ∉ run) :
      Edit (before ++ after) (before ++ '#' :: run ++ after)
  | commentAtEnd {text run : List Char} (hrun : '\n' ∉ run) : Edit text (text ++ '#' :: run)
  | newline {before after : List Char} {tokens : List Token} {token : Token}
      (htokens : tokenize (before ++ after) = .ok tokens) (hmem : token ∈ tokens)
      (hsymbol : token.symbol = .newline)
      (hplace : token.span.start = utf8Length before ∨ token.span.stop = utf8Length before) :
      Edit (before ++ after) (before ++ ['\n'] ++ after)
  | newlineAtStart {text : List Char} : Edit text ('\n' :: text)
  | newlineAtEnd {text : List Char} : Edit text (text ++ ['\n'])
  | newlineBeforePipe {before after : List Char} {earlier later : List Token} {token : Token}
      (htokens : tokenize (before ++ after) = .ok (earlier ++ token :: later))
      (hsymbol : token.symbol = .pipe) (hplace : token.span.start = utf8Length before)
      (houtside : Balanced (earlier.map (·.symbol))) :
      Edit (before ++ after) (before ++ ['\n'] ++ after)

/-- **`Edit` preserves `Declares`**, with the same rules. -/
theorem Edit.declares {text text' : List Char} {rules : List Rule} (hedit : Edit text text')
    (h : Declares text rules) : Declares text' rules := by
  cases hedit with
  | @blanks before after run tokens token htokens hmem hplace hrun =>
      obtain ⟨ts, us, rfl⟩ := List.append_of_mem hmem
      rcases hplace with hstart | hstop
      · exact h.insert_quiet (place_tokenStart htokens hstart) (cuts_blanks hrun after)
      · exact h.insert_quiet (place_tokenStop htokens hstop) (cuts_blanks hrun after)
  | @comment before after run tokens token htokens hmem hsymbol hplace hrun =>
      obtain ⟨ts, us, rfl⟩ := List.append_of_mem hmem
      have hend : EndsLine after := by
        obtain ⟨⟨rest, rfl⟩, _⟩ := (cuts_of_tokenize htokens).split_start hplace
        rw [hsymbol]
        exact endsLine_newline rest
      exact h.insert_quiet (place_tokenStart htokens hplace) (cuts_comment hrun hend)
  | commentAtEnd hrun =>
      obtain ⟨tokens, htokens⟩ := h.tokenized
      rw [← List.append_nil text] at h
      have hinsert := h.insert_quiet (place_textEnd htokens) (cuts_comment hrun endsLine_nil)
      rwa [List.append_nil] at hinsert
  | newline htokens hmem hsymbol hplace =>
      obtain ⟨ts, us, rfl⟩ := List.append_of_mem hmem
      rcases hplace with hstart | hstop
      · refine h.insert_newline (place_tokenStart htokens hstart) fun document hdocument => ?_
        rw [List.map_cons, hsymbol] at hdocument ⊢
        exact Document.breaks_before_newline hdocument
      · refine h.insert_newline (place_tokenStop htokens hstop) fun document hdocument => ?_
        rw [List.map_append, List.map_singleton, hsymbol] at hdocument ⊢
        rw [List.append_assoc] at hdocument
        exact Document.breaks_after_newline hdocument
  | newlineAtStart =>
      obtain ⟨tokens, htokens⟩ := h.tokenized
      have hstart : Declares ([] ++ text) rules := h
      refine hstart.insert_newline (place_textStart htokens) fun document hdocument => ?_
      have hall : document.symbols = tokens.map (·.symbol) := hdocument
      rw [← hall]
      exact document.breaks_start
  | newlineAtEnd =>
      obtain ⟨tokens, htokens⟩ := h.tokenized
      rw [← List.append_nil text] at h
      have hinsert := h.insert_newline (place_textEnd htokens) fun document hdocument => by
        rw [List.map_nil, List.append_nil] at hdocument
        rw [← hdocument]
        exact document.breaks_end
      rwa [List.append_nil] at hinsert
  | newlineBeforePipe htokens hsymbol hplace houtside =>
      refine h.insert_newline (place_tokenStart htokens hplace) fun document hdocument => ?_
      rw [List.map_cons, hsymbol] at hdocument ⊢
      exact Document.breaks_before_pipe hdocument houtside

theorem declares_of_edits {text text' : List Char} {rules : List Rule}
    (hedits : Relation.ReflTransGen Edit text text') (h : Declares text rules) : Declares text' rules := by
  induction hedits with
  | refl => exact h
  | tail _ hedit ih => exact hedit.declares ih

/-- **Layout is irrelevant**: `compile` is constant on `Relation.ReflTransGen Edit`, as far as it succeeds. -/
theorem compile_edited {source edited : String} {table : Table} (h : compile source = .ok table)
    (hedits : Relation.ReflTransGen Edit source.toList edited.toList) : compile edited = .ok table := by
  have hdeclares : Declares edited.toList table.rules := declares_of_edits hedits (declares_of_compile h)
  exact hdeclares.compile

theorem compile_edited_twoLines :
    compile "s := (a|b)|c #x\n" = .ok ⟨[⟨"s", .choice [.choice [.ref "a", .ref "b"], .ref "c"]⟩]⟩ ∧
      compile "\ns := (a|b)#y\n|c #x \t\n" =
        .ok ⟨[⟨"s", .choice [.choice [.ref "a", .ref "b"], .ref "c"]⟩]⟩ := by
  have hcompile : compile "s := (a|b)|c #x\n" =
      .ok ⟨[⟨"s", .choice [.choice [.ref "a", .ref "b"], .ref "c"]⟩]⟩ := rfl
  have hbreak : Edit "s := (a|b)|c #x\n".toList "s := (a|b)\n|c #x\n".toList := by
    refine @Edit.newlineBeforePipe "s := (a|b)".toList "|c #x\n".toList
      [⟨.name ['s'], 0⟩, ⟨.define, 2⟩, ⟨.openGroup, 5⟩, ⟨.name ['a'], 6⟩, ⟨.pipe, 7⟩, ⟨.name ['b'], 8⟩,
        ⟨.closeGroup, 9⟩]
      [⟨.name ['c'], 11⟩, ⟨.newline, 15⟩] ⟨.pipe, 10⟩ rfl rfl rfl (by decide)
  have hcomment : Edit "s := (a|b)\n|c #x\n".toList "s := (a|b)#y\n|c #x\n".toList := by
    refine @Edit.comment "s := (a|b)".toList "\n|c #x\n".toList ['y'] _ ⟨.newline, 10⟩ rfl ?_ rfl rfl (by decide)
    decide
  -- the blanks land in the comment of the second line
  have hblanks : Edit "s := (a|b)#y\n|c #x\n".toList "s := (a|b)#y\n|c #x \t\n".toList := by
    refine @Edit.blanks "s := (a|b)#y\n|c #x".toList ['\n'] [' ', '\t'] _ ⟨.newline, 18⟩ rfl ?_ (.inl rfl) ?_
    · decide
    · exact List.forall_mem_cons.mpr ⟨rfl, List.forall_mem_singleton.mpr rfl⟩
  have hstart : Edit "s := (a|b)#y\n|c #x \t\n".toList "\ns := (a|b)#y\n|c #x \t\n".toList :=
    .newlineAtStart
  have hedits := (((Relation.ReflTransGen.single hbreak).tail hcomment).tail hblanks).tail hstart
  exact ⟨hcompile, compile_edited hcompile hedits⟩

end PegTree.Grammar
