import PegTree.Grammar.Reader
import PegTree.Proofs.SyntaxTree

/-!
# `Proofs.Reading` — a grammar text is read as its derivation says

`compile` reads lines by a machine with a stack of open groups. `Proofs.SyntaxTree` says what the lines are
by trees. This module ties the two together.

* **Completeness.** The machine walks over the symbols of a tree and leaves the patterns of the tree in its
  innermost level (`Alternatives.moves`), so it reads every document (`linesFrom_of_derives`).
* **Soundness.** Wherever the machine stands inside a line, the symbols it has taken are those of unfinished
  trees, one `Frame` for each level (`Reads`). One token keeps that (`Reads.moved`, `Reads.finished`), so
  what the machine reads to the end is a document (`derives_of_linesFrom`).
* **Errors.** Each step of `compile` fails with causes of its own (`Cause.family`), and the first step that
  fails decides (`compile_characterised`).
-/

namespace PegTree.Grammar

/-! ## The machine on the symbols of a tree -/

/-- **`Moves a symbols b`**: from state `a` the tokens of `symbols` lead to state `b` without finishing a line,
    whatever `rest` follows. -/
def Moves (a : State) (symbols : List Symbol) (b : State) : Prop :=
  ∀ (length : Nat) (tokens rest : List Token), tokens.map (·.symbol) = symbols →
    linesFrom length a (tokens ++ rest) = linesFrom length b rest

theorem Moves.refl (a : State) : Moves a [] a := by
  intro length tokens rest h
  rw [List.map_eq_nil_iff] at h
  rw [h]
  rfl

theorem Moves.trans {a b c : State} {xs ys : List Symbol} (h : Moves a xs b) (h' : Moves b ys c) :
    Moves a (xs ++ ys) c := by
  intro length tokens rest htokens
  obtain ⟨ts, us, rfl, hts, hus⟩ := List.map_eq_append_iff.mp htokens
  rw [List.append_assoc, h length ts (us ++ rest) hts, h' length us rest hus]

theorem Moves.single {a b : State} {x : Symbol} (h : ∀ start, a.step ⟨x, start⟩ = .moved b) :
    Moves a [x] b := by
  intro length tokens rest htokens
  obtain ⟨⟨y, start⟩, rfl, rfl⟩ := List.map_eq_singleton_iff.mp htokens
  rw [List.singleton_append, linesFrom, h]

/-- `step` on a `.literal` pushes a term, whether `level` expects one or has one; `step_name` and `step_openGroup`
    likewise. -/
theorem step_literal (opening : Opening) (level : Level) (outer : List Level) (body : List Char)
    (start : Nat) : State.step (.inside opening level outer) ⟨.literal body, start⟩ =
      .moved (.inside opening (level.push (.literal (String.ofList (unescape body)))) outer) := by
  obtain ⟨complete, terms⟩ := level
  cases terms <;> rfl

theorem step_name (opening : Opening) (level : Level) (outer : List Level) (text : List Char)
    (start : Nat) : State.step (.inside opening level outer) ⟨.name text, start⟩ =
      .moved (.inside opening (level.push (.ref (String.ofList text))) outer) := by
  obtain ⟨complete, terms⟩ := level
  cases terms <;> rfl

theorem step_openGroup (opening : Opening) (level : Level) (outer : List Level) (start : Nat) :
    State.step (.inside opening level outer) ⟨.openGroup, start⟩ =
      .moved (.inside opening {} (level :: outer)) := by
  obtain ⟨complete, terms⟩ := level
  cases terms <;> rfl

/-- `suffixes` fold `Suffix.apply` over the term pushed last. -/
theorem suffixes_moves (opening : Opening) (level : Level) (outer : List Level) (p : Pattern)
    (suffixes : List Suffix) :
    Moves (.inside opening (level.push p) outer) (suffixes.map Suffix.symbol)
      (.inside opening (level.push (suffixes.foldl Suffix.apply p)) outer) := by
  induction suffixes generalizing p with
  | nil => exact Moves.refl _
  | cons s suffixes ih =>
      have hone : Moves (.inside opening (level.push p) outer) [s.symbol]
          (.inside opening (level.push (s.apply p)) outer) := by
        cases s with
        | question => exact Moves.single fun _ => rfl
        | star => exact Moves.single fun _ => rfl
      exact hone.trans (ih (s.apply p))

theorem Sequence.patterns_ne_nil (s : Sequence) : s.patterns ≠ [] := by
  cases s with
  | last t => exact List.cons_ne_nil _ _
  | cons t s => exact List.cons_ne_nil _ _

/-- A level with the terms of `s` is `level.push last`, as `Moves` of a suffix or a pipe needs it. -/
theorem Sequence.level_eq_push (s : Sequence) (complete : List Pattern) :
    ∃ (level : Level) (last : Pattern), Level.mk complete s.patterns.reverse = level.push last := by
  cases hterms : s.patterns.reverse with
  | nil => exact absurd (List.reverse_eq_nil_iff.mp hterms) s.patterns_ne_nil
  | cons last terms => exact ⟨⟨complete, terms⟩, last, rfl⟩

-- A mutual induction on trees: what a tree of each kind adds to the innermost level. Groups lead from
-- primaries back to alternatives, which start on a fresh level and leave the levels around it alone.
mutual
theorem Primary.moves (opening : Opening) : ∀ (p : Primary) (level : Level) (outer : List Level),
    Moves (.inside opening level outer) p.symbols (.inside opening (level.push p.pattern) outer)
  | .literal body, level, outer => Moves.single fun start => step_literal opening level outer body start
  | .name text, level, outer => Moves.single fun start => step_name opening level outer text start
  | .group a, level, outer => by
      obtain ⟨inner, last, hmoves, halternatives⟩ := Alternatives.moves opening a [] (level :: outer)
      have hopen : Moves (.inside opening level outer) [.openGroup] (.inside opening {} (level :: outer)) :=
        Moves.single fun start => step_openGroup opening level outer start
      have hclose : Moves (.inside opening (inner.push last) (level :: outer)) [.closeGroup]
          (.inside opening (level.push (Primary.group a).pattern) outer) := by
        refine Moves.single fun start => ?_
        rw [Primary.pattern, ← show (inner.push last).alternatives = a.patterns from halternatives]
        rfl
      exact hopen.trans (hmoves.trans hclose)
theorem Term.moves (opening : Opening) : ∀ (t : Term) (level : Level) (outer : List Level),
    Moves (.inside opening level outer) t.symbols (.inside opening (level.push t.pattern) outer)
  | .mk p suffixes, level, outer =>
      (Primary.moves opening p level outer).trans
        (suffixes_moves opening level outer p.pattern suffixes)
theorem Sequence.moves (opening : Opening) : ∀ (s : Sequence) (level : Level) (outer : List Level),
    Moves (.inside opening level outer) s.symbols
      (.inside opening ⟨level.complete, s.patterns.reverse ++ level.terms⟩ outer)
  | .last t, level, outer => Term.moves opening t level outer
  | .cons t s, level, outer => by
      have hrest := Sequence.moves opening s (level.push t.pattern) outer
      rw [Sequence.patterns, List.reverse_cons, List.append_assoc, List.singleton_append]
      exact (Term.moves opening t level outer).trans hrest
theorem Alternatives.moves (opening : Opening) :
    ∀ (a : Alternatives) (complete : List Pattern) (outer : List Level),
      ∃ (level : Level) (last : Pattern), Moves (.inside opening ⟨complete, []⟩ outer) a.symbols
          (.inside opening (level.push last) outer) ∧
        (level.push last).alternatives = complete.reverse ++ a.patterns
  | .last s, complete, outer => by
      have hmoves := Sequence.moves opening s ⟨complete, []⟩ outer
      obtain ⟨level, last, hlevel⟩ := s.level_eq_push complete
      rw [List.append_nil, hlevel] at hmoves
      refine ⟨level, last, hmoves, ?_⟩
      rw [← hlevel, Alternatives.patterns]
      simp [Level.alternatives, Level.next]
  | .cons s a, complete, outer => by
      have hmoves := Sequence.moves opening s ⟨complete, []⟩ outer
      obtain ⟨level, last, hlevel⟩ := s.level_eq_push complete
      have hpipe : Moves (.inside opening (level.push last) outer) [.pipe]
          (.inside opening ⟨.sequence s.patterns :: complete, []⟩ outer) := by
        have hnext : (level.push last).next = ⟨.sequence s.patterns :: complete, []⟩ := by
          rw [← hlevel, Level.next, List.reverse_reverse]
        exact Moves.single fun start => by rw [← hnext]; rfl
      obtain ⟨level', last', hrest, halternatives⟩ :=
        Alternatives.moves opening a (.sequence s.patterns :: complete) outer
      rw [List.append_nil, hlevel] at hmoves
      refine ⟨level', last', hmoves.trans (hpipe.trans hrest), ?_⟩
      rw [halternatives, Alternatives.patterns, List.reverse_cons, List.append_assoc,
        List.singleton_append]
end

/-! ## Completeness -/

/-- **`Denotes sources lines`**: `lines` are the non-blank `sources` as the machine returns them. A `.continuation`
    has in addition the span of its pipe, which `sources` do not know. -/
inductive Denotes : List SourceLine → List Line → Prop where
  | nil : Denotes [] []
  | blank {sources lines} : Denotes sources lines → Denotes (.blank :: sources) lines
  | rule {sources lines} (name : List Char) (a : Alternatives) : Denotes sources lines →
      Denotes (.rule name a :: sources) (⟨.declaration name, a.patterns⟩ :: lines)
  | continuation {sources lines} (pipe : Text.Span) (a : Alternatives) : Denotes sources lines →
      Denotes (.continuation a :: sources) (⟨.continuation pipe, a.patterns⟩ :: lines)

/-- `a.symbols` up to the end of the tokens are the one line `⟨opening, a.patterns⟩`. -/
theorem linesFrom_body (length : Nat) (opening : Opening) (a : Alternatives) {tokens : List Token}
    (h : tokens.map (·.symbol) = a.symbols) :
    linesFrom length (.inside opening {} []) tokens = .ok [⟨opening, a.patterns⟩] := by
  obtain ⟨level, last, hmoves, halternatives⟩ := Alternatives.moves opening a [] []
  have hend := hmoves length tokens [] h
  rw [List.append_nil] at hend
  rw [hend, ← show (level.push last).alternatives = a.patterns from halternatives]
  rfl

/-- `a.symbols` and `newline` are the line `⟨opening, a.patterns⟩`, before the lines of `rest`. -/
theorem linesFrom_body_newline (length : Nat) (opening : Opening) (a : Alternatives)
    {tokens rest : List Token} {newline : Token} (h : tokens.map (·.symbol) = a.symbols)
    (hnewline : newline.symbol = .newline) {lines : List Line}
    (hrest : linesFrom length .lineStart rest = .ok lines) :
    linesFrom length (.inside opening {} []) (tokens ++ newline :: rest) =
      .ok (⟨opening, a.patterns⟩ :: lines) := by
  obtain ⟨level, last, hmoves, halternatives⟩ := Alternatives.moves opening a [] []
  obtain ⟨_, start⟩ := newline
  cases hnewline
  have hstep : State.step (.inside opening (level.push last) []) ⟨.newline, start⟩ =
      .finished ⟨opening, (level.push last).alternatives⟩ := rfl
  rw [hmoves length tokens _ h, linesFrom, hstep]
  simp only [hrest]
  rw [show (level.push last).alternatives = a.patterns from halternatives]

/-- `linesFrom_of_derives` for a single line. -/
theorem linesFrom_last (length : Nat) (source : SourceLine) {tokens : List Token}
    (h : tokens.map (·.symbol) = source.symbols) :
    ∃ lines, linesFrom length .lineStart tokens = .ok lines ∧ Denotes [source] lines := by
  cases source with
  | blank =>
      rw [List.map_eq_nil_iff.mp h]
      exact ⟨[], rfl, .blank .nil⟩
  | rule name a =>
      obtain ⟨⟨_, start⟩, _, rfl, hname, hrest⟩ := List.map_eq_cons_iff.mp h
      obtain ⟨⟨_, start'⟩, tokens, rfl, hdefine, hbody⟩ := List.map_eq_cons_iff.mp hrest
      cases hname
      cases hdefine
      exact ⟨_, linesFrom_body length (.declaration name) a hbody, .rule name a .nil⟩
  | continuation a =>
      obtain ⟨⟨_, start⟩, tokens, rfl, hpipe, hbody⟩ := List.map_eq_cons_iff.mp h
      cases hpipe
      exact ⟨_, linesFrom_body length (.continuation _) a hbody, .continuation _ a .nil⟩

/-- The step of `linesFrom_of_derives`: `source` and a `newline` in front of tokens that read as `lines`. -/
theorem linesFrom_cons (length : Nat) (source : SourceLine) {tokens rest : List Token} {newline : Token}
    (h : tokens.map (·.symbol) = source.symbols) (hnewline : newline.symbol = .newline)
    {sources : List SourceLine} {lines : List Line}
    (hrest : linesFrom length .lineStart rest = .ok lines) (hlines : Denotes sources lines) :
    ∃ lines', linesFrom length .lineStart (tokens ++ newline :: rest) = .ok lines' ∧
      Denotes (source :: sources) lines' := by
  cases source with
  | blank =>
      obtain ⟨_, start⟩ := newline
      cases hnewline
      rw [List.map_eq_nil_iff.mp h]
      exact ⟨lines, hrest, .blank hlines⟩
  | rule name a =>
      obtain ⟨⟨_, start⟩, _, rfl, hname, hmore⟩ := List.map_eq_cons_iff.mp h
      obtain ⟨⟨_, start'⟩, tokens, rfl, hdefine, hbody⟩ := List.map_eq_cons_iff.mp hmore
      cases hname
      cases hdefine
      exact ⟨_, linesFrom_body_newline length (.declaration name) a hbody hnewline hrest,
        .rule name a hlines⟩
  | continuation a =>
      obtain ⟨⟨_, start⟩, tokens, rfl, hpipe, hbody⟩ := List.map_eq_cons_iff.mp h
      cases hpipe
      exact ⟨_, linesFrom_body_newline length (.continuation _) a hbody hnewline hrest,
        .continuation _ a hlines⟩

/-- **Completeness**: `linesFrom` reads the symbols of every document, as lines that it `Denotes`. -/
theorem linesFrom_of_derives (length : Nat) (first : SourceLine) (rest : List SourceLine)
    {tokens : List Token} (h : tokens.map (·.symbol) = first.symbols ++ followingSymbols rest) :
    ∃ lines, linesFrom length .lineStart tokens = .ok lines ∧ Denotes (first :: rest) lines := by
  induction rest generalizing first tokens with
  | nil => exact linesFrom_last length first (h.trans (List.append_nil _))
  | cons source rest ih =>
      obtain ⟨ts, us, rfl, hfirst, hmore⟩ := List.map_eq_append_iff.mp h
      obtain ⟨newline, us, rfl, hnewline, hrest⟩ := List.map_eq_cons_iff.mp hmore
      obtain ⟨lines, hread, hdenotes⟩ := ih source hrest
      exact linesFrom_cons length first hfirst hnewline hread hdenotes

/-! ## Unfinished trees -/

/-- Unfinished alternatives: the sequences with a pipe behind them, and the terms behind the last pipe, latest
    first. -/
structure Frame where
  sequences : List Sequence
  terms : List Term

namespace Frame

/-- The yield of a frame so far. -/
def symbols (frame : Frame) : List Symbol :=
  frame.sequences.reverse.flatMap (fun s => s.symbols ++ [.pipe]) ++
    frame.terms.reverse.flatMap Term.symbols

/-- The `Level` of the machine that belongs to `frame`. -/
def level (frame : Frame) : Level :=
  ⟨frame.sequences.map fun s => .sequence s.patterns, frame.terms.map Term.pattern⟩

def push (frame : Frame) (t : Term) : Frame :=
  { frame with terms := t :: frame.terms }

theorem push_symbols (frame : Frame) (t : Term) : (frame.push t).symbols = frame.symbols ++ t.symbols := by
  simp [push, symbols]

/-- The yield before the innermost frame: an `.openGroup` behind each frame around it. -/
def opened : List Frame → List Symbol
  | [] => []
  | frame :: outer => opened outer ++ (frame.symbols ++ [.openGroup])

end Frame

/-- A nonempty list of terms is a `Sequence`, with the concatenated yield and the same patterns. -/
theorem exists_sequence (t : Term) (ts : List Term) : ∃ s : Sequence,
    s.symbols = (t :: ts).flatMap Term.symbols ∧ s.patterns = (t :: ts).map Term.pattern := by
  induction ts generalizing t with
  | nil => exact ⟨.last t, (List.append_nil _).symm, rfl⟩
  | cons u ts ih =>
      obtain ⟨s, hsymbols, hpatterns⟩ := ih u
      refine ⟨.cons t s, ?_, ?_⟩
      · rw [Sequence.symbols, hsymbols]
        rfl
      · rw [Sequence.patterns, hpatterns]
        rfl

/-- Sequences with a pipe behind each, and a `last`, are `Alternatives`. -/
theorem exists_alternatives (ss : List Sequence) (last : Sequence) : ∃ a : Alternatives,
    a.symbols = ss.flatMap (fun s => s.symbols ++ [.pipe]) ++ last.symbols ∧
    a.patterns = (ss ++ [last]).map fun s => .sequence s.patterns := by
  induction ss with
  | nil => exact ⟨.last last, rfl, rfl⟩
  | cons s ss ih =>
      obtain ⟨a, hsymbols, hpatterns⟩ := ih
      refine ⟨.cons s a, ?_, ?_⟩
      · rw [Alternatives.symbols, hsymbols]
        simp
      · rw [Alternatives.patterns, hpatterns]
        rfl

namespace Frame

/-- `Frame.symbols` with terms behind the last pipe splits into the frame without them and a `Sequence`. -/
theorem exists_sequence (sequences : List Sequence) (t : Term) (ts : List Term) : ∃ s : Sequence,
    Frame.symbols ⟨sequences, t :: ts⟩ = Frame.symbols ⟨sequences, []⟩ ++ s.symbols ∧
    .sequence s.patterns = Pattern.sequence (Frame.level ⟨sequences, t :: ts⟩).terms.reverse := by
  cases hterms : (t :: ts).reverse with
  | nil => exact absurd hterms (by simp)
  | cons u us =>
      obtain ⟨s, hsymbols, hpatterns⟩ := Grammar.exists_sequence u us
      refine ⟨s, ?_, ?_⟩
      · rw [hsymbols, symbols, symbols, hterms, List.reverse_nil, List.flatMap_nil, List.append_nil]
      · rw [hpatterns, level, ← List.map_reverse, hterms]

/-- A frame with a term behind its last pipe is the yield of `Alternatives`, and `Level.alternatives` are their
    patterns. -/
theorem exists_alternatives (sequences : List Sequence) (t : Term) (ts : List Term) :
    ∃ a : Alternatives, a.symbols = Frame.symbols ⟨sequences, t :: ts⟩ ∧
      a.patterns = (Frame.level ⟨sequences, t :: ts⟩).alternatives := by
  obtain ⟨s, hsymbols, hpattern⟩ := exists_sequence sequences t ts
  obtain ⟨a, ha, hpatterns⟩ := Grammar.exists_alternatives sequences.reverse s
  refine ⟨a, ?_, ?_⟩
  · rw [ha, hsymbols]
    simp [symbols]
  · rw [hpatterns, Level.alternatives, Level.next, List.reverse_cons, ← hpattern, List.map_append, level,
      List.map_reverse]
    rfl

end Frame

/-! ## Soundness -/

def Opening.symbols : Opening → List Symbol
  | .declaration name => [.name name, .define]
  | .continuation _ => [.pipe]

/-- **The invariant of the machine**, `Reads state symbols`: `symbols` of the current line have led to `state`, and
    inside a line they are the yield of one `Frame` for each `Level`. -/
inductive Reads : State → List Symbol → Prop where
  | lineStart : Reads .lineStart []
  | named (name : List Char) : Reads (.named name) [.name name]
  | inside (opening : Opening) (frame : Frame) (outer : List Frame) :
      Reads (.inside opening frame.level (outer.map Frame.level))
        (opening.symbols ++ (Frame.opened outer ++ frame.symbols))

/-- `Reads` after a term: `frame.level.push t.pattern`, with `t.symbols` more. -/
theorem Reads.push (opening : Opening) (frame : Frame) (outer : List Frame) (t : Term) :
    Reads (.inside opening (frame.level.push t.pattern) (outer.map Frame.level))
      (opening.symbols ++ (Frame.opened outer ++ frame.symbols) ++ t.symbols) := by
  have hreads := Reads.inside opening (frame.push t) outer
  rw [Frame.push_symbols] at hreads
  rw [List.append_assoc, List.append_assoc]
  exact hreads

/-- `Reads` after an `.openGroup`: a fresh frame on top of `frame :: outer`. -/
theorem Reads.openGroup (opening : Opening) (frame : Frame) (outer : List Frame) :
    Reads (.inside opening {} (frame.level :: outer.map Frame.level))
      (opening.symbols ++ (Frame.opened outer ++ frame.symbols) ++ [.openGroup]) := by
  have hreads := Reads.inside opening ⟨[], []⟩ (frame :: outer)
  have hempty : Frame.symbols ⟨[], []⟩ = [] := rfl
  rw [Frame.opened, hempty, List.append_nil, ← List.append_assoc, ← List.append_assoc] at hreads
  rw [← List.append_assoc]
  exact hreads

/-- `Reads` is kept by `stepBeforeTerm`. -/
theorem Reads.beforeTerm (opening : Opening) (sequences : List Sequence) (outer : List Frame)
    {x : Symbol} {state : State}
    (h : State.stepBeforeTerm opening (Frame.level ⟨sequences, []⟩) (outer.map Frame.level) x =
      .moved state) :
    Reads state (opening.symbols ++ (Frame.opened outer ++ Frame.symbols ⟨sequences, []⟩) ++ [x]) := by
  cases x with
  | literal body =>
      cases h
      exact Reads.push opening ⟨sequences, []⟩ outer (.mk (.literal body) [])
  | name text =>
      cases h
      exact Reads.push opening ⟨sequences, []⟩ outer (.mk (.name text) [])
  | openGroup =>
      cases h
      exact Reads.openGroup opening ⟨sequences, []⟩ outer
  | define | pipe | question | star | closeGroup | newline => cases h

/-- `Reads` after a suffix: `s.apply t.pattern` in place of `t.pattern`. -/
theorem Reads.suffix (opening : Opening) (frame : Frame) (outer : List Frame) (t : Term) (s : Suffix) :
    Reads (.inside opening (frame.level.push (s.apply t.pattern)) (outer.map Frame.level))
      (opening.symbols ++ (Frame.opened outer ++ (frame.push t).symbols) ++ [s.symbol]) := by
  obtain ⟨p, suffixes⟩ := t
  have hreads := Reads.push opening frame outer (.mk p (suffixes ++ [s]))
  rw [Term.pattern, List.foldl_append, Term.symbols, List.map_append] at hreads
  rw [Frame.push_symbols, Term.symbols, Term.pattern]
  simpa using hreads

/-- `Reads` is kept by `stepAfterTerm`. -/
theorem Reads.afterTerm (opening : Opening) (sequences : List Sequence) (t : Term) (ts : List Term)
    (outer : List Frame) {x : Symbol} {state : State}
    (h : State.stepAfterTerm opening (Frame.level ⟨sequences, ts⟩) t.pattern (outer.map Frame.level) x =
      .moved state) :
    Reads state
      (opening.symbols ++ (Frame.opened outer ++ Frame.symbols ⟨sequences, t :: ts⟩) ++ [x]) := by
  cases x with
  | literal body =>
      cases h
      exact Reads.push opening ⟨sequences, t :: ts⟩ outer (.mk (.literal body) [])
  | name text =>
      cases h
      exact Reads.push opening ⟨sequences, t :: ts⟩ outer (.mk (.name text) [])
  | openGroup =>
      cases h
      exact Reads.openGroup opening ⟨sequences, t :: ts⟩ outer
  | question =>
      cases h
      exact Reads.suffix opening ⟨sequences, ts⟩ outer t .question
  | star =>
      cases h
      exact Reads.suffix opening ⟨sequences, ts⟩ outer t .star
  | pipe =>
      cases h
      -- the terms behind the last pipe become one more sequence
      obtain ⟨s, hsymbols, hpattern⟩ := Frame.exists_sequence sequences t ts
      have hreads := Reads.inside opening ⟨s :: sequences, []⟩ outer
      have hlevel : Frame.level ⟨s :: sequences, []⟩ =
          ((Frame.level ⟨sequences, ts⟩).push t.pattern).next := by
        rw [Frame.level, List.map_cons, hpattern]
        rfl
      rw [hlevel] at hreads
      rw [hsymbols]
      simpa [Frame.symbols] using hreads
  | closeGroup =>
      cases outer with
      | nil => cases h
      | cons around outer =>
          cases h
          -- the innermost frame closes and becomes a term of the frame around it
          obtain ⟨a, hsymbols, hpatterns⟩ := Frame.exists_alternatives sequences t ts
          have hreads := Reads.push opening around outer (.mk (.group a) [])
          have hgroup : (Term.mk (.group a) []).pattern =
              .oneOf ((Frame.level ⟨sequences, ts⟩).push t.pattern).alternatives := by
            rw [Term.pattern, Primary.pattern, hpatterns]
            rfl
          rw [hgroup] at hreads
          rw [Frame.opened, ← hsymbols]
          simpa [Term.symbols, Primary.symbols] using hreads
  | newline => cases outer <;> cases h
  | define => cases h

/-- **`Reads` is kept by every `.moved`**, with `token.symbol` at the end of `symbols`; or the token ended a blank
    line. -/
theorem Reads.moved {state state' : State} {symbols : List Symbol} {token : Token}
    (h : Reads state symbols) (hstep : state.step token = .moved state') :
    Reads state' (symbols ++ [token.symbol]) ∨
      (symbols = [] ∧ token.symbol = .newline ∧ state' = .lineStart) := by
  obtain ⟨x, start⟩ := token
  cases h with
  | lineStart =>
      cases x with
      | name text =>
          cases hstep
          exact .inl (.named text)
      | pipe =>
          cases hstep
          exact .inl (.inside (.continuation _) ⟨[], []⟩ [])
      | newline =>
          cases hstep
          exact .inr ⟨rfl, rfl, rfl⟩
      | define | question | star | openGroup | closeGroup | literal _ => cases hstep
  | named name =>
      cases x with
      | define =>
          cases hstep
          exact .inl (.inside (.declaration name) ⟨[], []⟩ [])
      | name _ | pipe | newline | question | star | openGroup | closeGroup | literal _ => cases hstep
  | inside opening frame outer =>
      obtain ⟨sequences, terms⟩ := frame
      cases terms with
      | nil => exact .inl (Reads.beforeTerm opening sequences outer hstep)
      | cons t ts => exact .inl (Reads.afterTerm opening sequences t ts outer hstep)

/-- **`.finished line` comes from a newline**, and the `symbols` before it derive `line`. -/
theorem Reads.finished {state : State} {symbols : List Symbol} {token : Token} {line : Line}
    (h : Reads state symbols) (hstep : state.step token = .finished line) :
    token.symbol = .newline ∧ ∃ (opening : Opening) (a : Alternatives),
      opening.symbols ++ a.symbols = symbols ∧ line = ⟨opening, a.patterns⟩ := by
  obtain ⟨x, start⟩ := token
  cases h with
  | lineStart => cases x <;> cases hstep
  | named name => cases x <;> cases hstep
  | inside opening frame outer =>
      obtain ⟨sequences, terms⟩ := frame
      cases terms with
      | nil => cases x <;> cases hstep
      | cons t ts =>
          cases outer with
          | nil =>
              obtain ⟨a, hsymbols, hpatterns⟩ := Frame.exists_alternatives sequences t ts
              cases x with
              | newline =>
                  cases hstep
                  refine ⟨rfl, opening, a, ?_, ?_⟩
                  · rw [hsymbols]
                    rfl
                  · rw [hpatterns]
                    rfl
              | define | pipe | question | star | openGroup | closeGroup | name _ | literal _ => cases hstep
          | cons around outer => cases x <;> cases hstep

/-- A `SourceLine` for an opening and alternatives, added on both sides of `Denotes`. -/
theorem Denotes.line (opening : Opening) (a : Alternatives) {sources : List SourceLine}
    {lines : List Line} (h : Denotes sources lines) :
    ∃ source : SourceLine, source.symbols = opening.symbols ++ a.symbols ∧
      Denotes (source :: sources) (⟨opening, a.patterns⟩ :: lines) := by
  cases opening with
  | declaration name => exact ⟨.rule name a, rfl, .rule name a h⟩
  | continuation pipe => exact ⟨.continuation a, rfl, .continuation pipe a h⟩

/-- **`state.finish` behind `symbols`** returns a line that `symbols` derive. -/
theorem Reads.finish {state : State} {symbols : List Symbol} {lines : List Line}
    (h : Reads state symbols) (hfinish : state.finish = .ok lines) :
    ∃ source : SourceLine, source.symbols = symbols ∧ Denotes [source] lines := by
  cases h with
  | lineStart =>
      cases hfinish
      exact ⟨.blank, rfl, .blank .nil⟩
  | named name => cases hfinish
  | inside opening frame outer =>
      obtain ⟨sequences, terms⟩ := frame
      cases terms with
      | nil => cases hfinish
      | cons t ts =>
          cases outer with
          | nil =>
              cases hfinish
              obtain ⟨a, hsymbols, hpatterns⟩ := Frame.exists_alternatives sequences t ts
              obtain ⟨source, hsource, hdenotes⟩ := Denotes.nil.line opening a
              refine ⟨source, ?_, ?_⟩
              · rw [hsource, hsymbols]
                rfl
              · rw [hpatterns] at hdenotes
                exact hdenotes
          | cons around outer => cases hfinish

/-- **Soundness**: if `linesFrom` reads `tokens` from `state`, then `symbols` and the symbols of `tokens` are
    those of a document that `Denotes` the lines read. By induction on `tokens` with `Reads.moved` and
    `Reads.finished`. -/
theorem derives_of_linesFrom (length : Nat) {state : State} {symbols : List Symbol}
    {tokens : List Token} {lines : List Line} (h : Reads state symbols)
    (hread : linesFrom length state tokens = .ok lines) :
    ∃ document : Document, document.symbols = symbols ++ tokens.map (·.symbol) ∧
      Denotes document.lines lines := by
  induction tokens generalizing state symbols lines with
  | nil =>
      rw [linesFrom] at hread
      cases hfinish : state.finish with
      | error expected =>
          rw [hfinish] at hread
          cases hread
      | ok finished =>
          rw [hfinish] at hread
          cases hread
          obtain ⟨source, hsource, hdenotes⟩ := h.finish hfinish
          exact ⟨⟨source, []⟩, by rw [← hsource]; rfl, hdenotes⟩
  | cons token tokens ih =>
      rw [linesFrom] at hread
      cases hstep : state.step token with
      | refused expected =>
          rw [hstep] at hread
          cases hread
      | moved state' =>
          -- one more symbol of the same line, or a blank line before the rest of the document
          rw [hstep] at hread
          rcases h.moved hstep with hmoved | ⟨rfl, hnewline, rfl⟩
          · obtain ⟨document, hsymbols, hdenotes⟩ := ih hmoved hread
            refine ⟨document, ?_, hdenotes⟩
            rw [hsymbols, List.append_assoc]
            rfl
          · obtain ⟨document, hsymbols, hdenotes⟩ := ih .lineStart hread
            refine ⟨⟨.blank, document.lines⟩, ?_, .blank hdenotes⟩
            rw [List.map_cons, hnewline, ← List.nil_append (tokens.map _), ← hsymbols]
            rfl
      | finished line =>
          -- the line is complete, and the machine starts over on the next one
          rw [hstep] at hread
          simp only at hread
          cases hmore : linesFrom length .lineStart tokens with
          | error fault =>
              rw [hmore] at hread
              cases hread
          | ok more =>
              rw [hmore] at hread
              cases hread
              obtain ⟨hnewline, opening, a, rfl, rfl⟩ := h.finished hstep
              obtain ⟨document, hsymbols, hdenotes⟩ := ih .lineStart hmore
              obtain ⟨source, hsource, hline⟩ := hdenotes.line opening a
              refine ⟨⟨source, document.lines⟩, ?_, hline⟩
              rw [List.map_cons, hnewline, ← hsource, ← List.nil_append (tokens.map _), ← hsymbols]
              rfl

/-! ## Rules -/

/-- `gather` on the lines of `sources` is `declared sources` behind the rule that `continued sources` completes. -/
theorem gather_eq {sources : List SourceLine} {lines : List Line} (h : Denotes sources lines)
    (name : List Char) (alternatives : List Pattern) :
    gather name alternatives lines =
      ⟨String.ofList name, .oneOf (alternatives ++ continued sources)⟩ :: declared sources := by
  induction h generalizing name alternatives with
  | nil => rw [gather, continued, List.append_nil, declared]
  | blank _ ih => exact ih name alternatives
  | rule next a _ ih => rw [gather, ih, continued, List.append_nil, declared]
  | continuation pipe a _ ih => rw [gather, ih, continued, List.append_assoc, declared]

/-- `rulesOf` refuses lines that lead with a continuation, at its pipe. -/
theorem rulesOf_leading (length : Nat) {sources : List SourceLine} {lines : List Line}
    (h : Denotes sources lines) (hleads : leadsWithContinuation sources = true) :
    ∃ pipe, rulesOf length lines = .error ⟨.unexpectedToken .pipe .ruleDeclaration, pipe⟩ := by
  induction h with
  | nil => cases hleads
  | blank _ ih => exact ih hleads
  | rule name a _ _ => cases hleads
  | continuation pipe a _ _ => exact ⟨pipe, rfl⟩

/-- `rulesOf` on other lines is `declared sources`, or `.noRules` if that is `[]`. -/
theorem rulesOf_declared (length : Nat) {sources : List SourceLine} {lines : List Line}
    (h : Denotes sources lines) (hleads : leadsWithContinuation sources = false) :
    rulesOf length lines = if declared sources = [] then .error ⟨.noRules, ⟨length, length⟩⟩
      else .ok (declared sources) := by
  induction h with
  | nil => rfl
  | blank _ ih => exact ih hleads
  | rule name a hrest _ =>
      rw [rulesOf, gather_eq hrest, declared]
      rfl
  | continuation pipe a _ _ => cases hleads

/-! ## Escapes -/

/-- The escapes of a literal: the character behind the backslash and the one it stands for. -/
def escapes : List (Char × Char) :=
  [('"', '"'), ('\\', '\\'), ('n', '\n'), ('t', '\t'), ('r', '\r')]

/-- **`Decodes body value`**: `body` writes `value`, with `escapes` as its only escapes. -/
inductive Decodes : List Char → List Char → Prop where
  | nil : Decodes [] []
  | plain {c : Char} {body value : List Char} (h : c ≠ '\\') : Decodes body value →
      Decodes (c :: body) (c :: value)
  | escape {c d : Char} {body value : List Char} (h : (c, d) ∈ escapes) : Decodes body value →
      Decodes ('\\' :: c :: body) (d :: value)

theorem escaped?_eq_some_iff {c d : Char} : escaped? c = some d ↔ (c, d) ∈ escapes := by
  unfold escaped?
  repeat' split
  all_goals simp_all [escapes, eq_comm]

/-- `Decodes` is functional, and `unescape` computes it. -/
theorem Decodes.unescape_eq {body value : List Char} (h : Decodes body value) :
    unescape body = value := by
  induction h with
  | nil => rfl
  | @plain c body value hc _ ih =>
      cases body with
      | nil =>
          cases ih
          rfl
      | cons d body => rw [unescape, if_neg hc, ih]
  | escape hpair _ ih => rw [unescape, if_pos rfl, escaped?_eq_some_iff.mpr hpair, ih, Option.getD_some]

/-- `badEscape?` returns `none` iff `body` has a value. -/
theorem badEscape?_eq_none_iff (offset : Nat) (body : List Char) :
    badEscape? offset body = none ↔ Decodes body (unescape body) := by
  fun_induction badEscape? offset body with
  | case1 => exact ⟨fun _ => .nil, fun _ => rfl⟩
  | case2 offset =>
      constructor
      · intro h
        cases h
      · intro hbody
        cases hbody with
        | plain hc _ => exact absurd rfl hc
  | case3 offset c hc => exact ⟨fun _ => .plain hc .nil, fun _ => rfl⟩
  | case4 offset d rest hd ih =>
      obtain ⟨e, he⟩ := Option.isSome_iff_exists.mp hd
      rw [ih, unescape, if_pos rfl, he, Option.getD_some]
      constructor
      · intro hrest
        exact .escape (escaped?_eq_some_iff.mp he) hrest
      · intro hbody
        cases hbody with
        | plain hc _ => exact absurd rfl hc
        | escape _ hrest => exact hrest
  | case5 offset d rest hd =>
      constructor
      · intro h
        cases h
      · intro hbody
        generalize unescape _ = value at hbody
        cases hbody with
        | plain hc _ => exact absurd rfl hc
        | escape hpair _ =>
            rw [escaped?_eq_some_iff.mpr hpair] at hd
            exact absurd rfl hd
  | case6 offset c d rest hc ih =>
      rw [ih, unescape, if_neg hc]
      constructor
      · exact .plain hc
      · intro hbody
        cases hbody with
        | plain _ hrest => exact hrest
        | escape _ _ => exact absurd rfl hc

def Decodable (tokens : List Token) : Prop :=
  ∀ token ∈ tokens, ∀ body, token.symbol = .literal body → Decodes body (unescape body)

theorem escapeFault?_eq_none_iff (tokens : List Token) : escapeFault? tokens = none ↔ Decodable tokens := by
  induction tokens with
  | nil => exact ⟨fun _ _ h => absurd h List.not_mem_nil, fun _ => rfl⟩
  | cons token tokens ih =>
      unfold Decodable
      rw [List.forall_mem_cons]
      change _ ↔ _ ∧ Decodable tokens
      rw [← ih, escapeFault?]
      split
      · next body hbody =>
          have hvalue : (∀ body', token.symbol = .literal body' → Decodes body' (unescape body')) ↔
              badEscape? (token.start + '"'.utf8Size) body = none := by
            rw [badEscape?_eq_none_iff, hbody]
            exact ⟨fun h => h body rfl, fun h body' hbody' => Symbol.literal.inj hbody' ▸ h⟩
          rw [hvalue]
          cases badEscape? (token.start + '"'.utf8Size) body with
          | none => exact (and_iff_right rfl).symm
          | some fault => exact ⟨fun h => (nomatch h), fun h => (nomatch h.1)⟩
      · next hother =>
          exact ⟨fun h => ⟨fun body hbody => absurd hbody (hother body), h⟩, fun h => h.2⟩

/-! ## Errors -/

/-- What can be wrong with a text, in the order in which `compile` looks for it. -/
inductive Family where
  | lexical
  | badEscape
  | structural
  | leadingContinuation
  | noRules
  deriving DecidableEq, Repr

/-- The family of a cause. `.unexpectedToken _ .ruleDeclaration` arises only from a pipe before the first
    declaration. -/
def Cause.family : Cause → Family
  | .unterminatedLiteral => .lexical
  | .unknownSymbol _ => .lexical
  | .invalidEscape _ => .badEscape
  | .unexpectedToken _ .ruleDeclaration => .leadingContinuation
  | .unexpectedToken _ _ => .structural
  | .unexpectedEnd _ => .structural
  | .noRules => .noRules

/-- `tokensFrom` fails with `.lexical` causes only. -/
theorem tokensFrom_family {source : List Char} {seen offset : Nat} {fault : Fault}
    (h : tokensFrom source seen offset = .error fault) : fault.cause.family = .lexical := by
  fun_induction tokensFrom source seen offset with
  | case1 => cases h
  | case2 _ _ _ _ ih => exact ih h
  | case3 _ _ _ _ _ ih => exact ih h
  | case4 => cases h
  | case5 _ _ _ _ _ _ hfault ih =>
      cases h
      exact ih hfault
  | case6 =>
      cases h
      rfl
  | case7 =>
      cases h
      rfl

theorem tokenize_family {source : List Char} {error : SyntaxError}
    (h : tokenize source = .error error) : error.cause.family = .lexical := by
  unfold tokenize at h
  cases htokens : tokensFrom source 0 0 with
  | ok tokens =>
      rw [htokens] at h
      cases h
  | error fault =>
      rw [htokens] at h
      cases h
      exact tokensFrom_family htokens

theorem escapeFault?_family {tokens : List Token} {fault : Fault}
    (h : escapeFault? tokens = some fault) : fault.cause.family = .badEscape := by
  fun_induction escapeFault? tokens with
  | case1 => cases h
  | case2 =>
      cases h
      rfl
  | case3 _ _ _ _ _ ih => exact ih h
  | case4 _ _ _ ih => exact ih h

theorem step_refused_ne {state : State} {token : Token} {expected : Expectation}
    (h : state.step token = .refused expected) : expected ≠ .ruleDeclaration := by
  obtain ⟨x, start⟩ := token
  rintro rfl
  cases state with
  | lineStart => cases x <;> cases h
  | named name => cases x <;> cases h
  | inside opening level outer =>
      obtain ⟨complete, terms⟩ := level
      cases terms with
      | nil => cases x <;> cases h
      | cons last terms => cases x <;> cases outer <;> cases h

/-- `linesFrom` fails with `.structural` causes only. -/
theorem linesFrom_family {length : Nat} {state : State} {tokens : List Token} {fault : Fault}
    (h : linesFrom length state tokens = .error fault) : fault.cause.family = .structural := by
  fun_induction linesFrom length state tokens with
  | case1 => cases h
  | case2 =>
      cases h
      rfl
  | case3 _ _ _ _ _ ih => exact ih h
  | case4 => cases h
  | case5 _ _ _ _ _ _ hfault ih =>
      cases h
      exact ih hfault
  | case6 _ _ _ expected hstep =>
      cases h
      have hne := step_refused_ne hstep
      cases expected with
      | ruleDeclaration => exact absurd rfl hne
      | ruleName => rfl
      | define => rfl
      | term => rfl

/-! ## The whole text -/

/-- **`Derived source document`**: `source` lexes, its literals are `Decodable`, and its symbols are
    `document.symbols`. -/
def Derived (source : List Char) (document : Document) : Prop :=
  ∃ tokens, tokenize source = .ok tokens ∧ Decodable tokens ∧
    document.symbols = tokens.map (·.symbol)

/-- **`Declares source rules`**: `source` derives a document that does not lead with a continuation, and
    `rules ≠ []` are what the document declares. -/
def Declares (source : List Char) (rules : List Rule) : Prop :=
  ∃ document, Derived source document ∧ leadsWithContinuation document.lines = false ∧
    declared document.lines = rules ∧ rules ≠ []

/-- **`Faulty source family`**: `family` is the first of the families that apply; each case has the negations of the
    earlier ones among its hypotheses. -/
inductive Faulty (source : List Char) : Family → Prop where
  | lexical (h : ∀ tokens, tokenize source ≠ .ok tokens) : Faulty source .lexical
  | badEscape {tokens : List Token} (htokens : tokenize source = .ok tokens)
      (h : ¬ Decodable tokens) : Faulty source .badEscape
  | structural {tokens : List Token} (htokens : tokenize source = .ok tokens)
      (hescapes : Decodable tokens)
      (h : ∀ document : Document, document.symbols ≠ tokens.map (·.symbol)) : Faulty source .structural
  | leadingContinuation {document : Document} (hderived : Derived source document)
      (h : leadsWithContinuation document.lines = true) : Faulty source .leadingContinuation
  | noRules {document : Document} (hderived : Derived source document)
      (hleads : leadsWithContinuation document.lines = false) (h : declared document.lines = []) :
      Faulty source .noRules

/-- Every `source` `Declares` rules or is `Faulty`. -/
theorem declares_or_faulty (source : List Char) :
    (∃ rules, Declares source rules) ∨ ∃ family, Faulty source family := by
  cases htokens : tokenize source with
  | error error =>
      exact .inr ⟨_, .lexical fun tokens h => by rw [htokens] at h; cases h⟩
  | ok tokens =>
      by_cases hescapes : Decodable tokens
      · by_cases hdocument : ∃ document : Document, document.symbols = tokens.map (·.symbol)
        · obtain ⟨document, hsymbols⟩ := hdocument
          have hderived : Derived source document := ⟨tokens, htokens, hescapes, hsymbols⟩
          cases hleads : leadsWithContinuation document.lines with
          | true => exact .inr ⟨_, .leadingContinuation hderived hleads⟩
          | false =>
              by_cases hrules : declared document.lines = []
              · exact .inr ⟨_, .noRules hderived hleads hrules⟩
              · exact .inl ⟨_, document, hderived, hleads, rfl, hrules⟩
        · exact .inr ⟨_, .structural htokens hescapes fun document h => hdocument ⟨document, h⟩⟩
      · exact .inr ⟨_, .badEscape htokens hescapes⟩

theorem compile_of_rules {source : String} {tokens : List Token} {rules : List Rule}
    (htokens : tokenize source.toList = .ok tokens)
    (h : rulesOfTokens (Text.utf8Length source.toList) tokens = .ok rules) :
    compile source = .ok ⟨rules⟩ := by
  simp only [compile, compileChars, htokens, h]

theorem compile_of_fault {source : String} {tokens : List Token} {fault : Fault}
    (htokens : tokenize source.toList = .ok tokens)
    (h : rulesOfTokens (Text.utf8Length source.toList) tokens = .error fault) :
    compile source = .error (fault.locate source.toList) := by
  simp only [compile, compileChars, htokens, h]

/-- For `Derived source document`, `rulesOfTokens` is `rulesOf` on lines that `document.lines` denotes. -/
theorem Derived.rulesOfTokens_eq {source : List Char} {document : Document}
    (h : Derived source document) (length : Nat) :
    ∃ tokens lines, tokenize source = .ok tokens ∧ Denotes document.lines lines ∧
      rulesOfTokens length tokens = rulesOf length lines := by
  obtain ⟨tokens, htokens, hescapes, hsymbols⟩ := h
  obtain ⟨lines, hread, hdenotes⟩ :=
    linesFrom_of_derives length document.first document.rest hsymbols.symm
  refine ⟨tokens, lines, htokens, hdenotes, ?_⟩
  simp only [rulesOfTokens, (escapeFault?_eq_none_iff tokens).mpr hescapes, hread]

theorem Declares.compile {source : String} {rules : List Rule} (h : Declares source.toList rules) :
    compile source = .ok ⟨rules⟩ := by
  obtain ⟨document, hderived, hleads, rfl, hrules⟩ := h
  obtain ⟨tokens, lines, htokens, hdenotes, heq⟩ :=
    hderived.rulesOfTokens_eq (Text.utf8Length source.toList)
  refine compile_of_rules htokens ?_
  rw [heq, rulesOf_declared _ hdenotes hleads, if_neg hrules]

theorem Faulty.compile {source : String} {family : Family} (h : Faulty source.toList family) :
    ∃ error, compile source = .error error ∧ error.cause.family = family := by
  cases h with
  | lexical h =>
      cases htokens : tokenize source.toList with
      | ok tokens => exact absurd htokens (h tokens)
      | error error =>
          refine ⟨error, ?_, tokenize_family htokens⟩
          simp only [Grammar.compile, compileChars, htokens]
  | @badEscape tokens htokens h =>
      cases hfault : escapeFault? tokens with
      | none => exact absurd ((escapeFault?_eq_none_iff tokens).mp hfault) h
      | some fault =>
          refine ⟨_, compile_of_fault htokens ?_, escapeFault?_family hfault⟩
          simp only [rulesOfTokens, hfault]
  | @structural tokens htokens hescapes h =>
      cases hread : linesFrom (Text.utf8Length source.toList) .lineStart tokens with
      | ok lines =>
          obtain ⟨document, hsymbols, _⟩ := derives_of_linesFrom _ .lineStart hread
          exact absurd hsymbols (h document)
      | error fault =>
          refine ⟨_, compile_of_fault htokens ?_, linesFrom_family hread⟩
          simp only [rulesOfTokens, (escapeFault?_eq_none_iff tokens).mpr hescapes, hread]
  | leadingContinuation hderived h =>
      obtain ⟨tokens, lines, htokens, hdenotes, heq⟩ :=
        hderived.rulesOfTokens_eq (Text.utf8Length source.toList)
      obtain ⟨pipe, hrules⟩ := rulesOf_leading (Text.utf8Length source.toList) hdenotes h
      exact ⟨_, compile_of_fault htokens (heq.trans hrules), rfl⟩
  | noRules hderived hleads h =>
      obtain ⟨tokens, lines, htokens, hdenotes, heq⟩ :=
        hderived.rulesOfTokens_eq (Text.utf8Length source.toList)
      have hrules := rulesOf_declared (Text.utf8Length source.toList) hdenotes hleads
      rw [if_pos h] at hrules
      exact ⟨_, compile_of_fault htokens (heq.trans hrules), rfl⟩

theorem declares_of_compile {source : String} {table : Table} (h : compile source = .ok table) :
    Declares source.toList table.rules := by
  rcases declares_or_faulty source.toList with ⟨rules, hdeclares⟩ | ⟨family, hfaulty⟩
  · rw [hdeclares.compile] at h
    cases h
    exact hdeclares
  · obtain ⟨error, herror, _⟩ := hfaulty.compile
    rw [herror] at h
    cases h

theorem faulty_of_compile {source : String} {error : SyntaxError} (h : compile source = .error error) :
    Faulty source.toList error.cause.family := by
  rcases declares_or_faulty source.toList with ⟨rules, hdeclares⟩ | ⟨family, hfaulty⟩
  · rw [hdeclares.compile] at h
    cases h
  · obtain ⟨error', herror, rfl⟩ := hfaulty.compile
    rw [h] at herror
    cases herror
    exact hfaulty

/-- `Derived source` holds of one document at most. -/
theorem Derived.unique {source : List Char} {document document' : Document}
    (h : Derived source document) (h' : Derived source document') : document = document' := by
  obtain ⟨tokens, htokens, _, hsymbols⟩ := h
  obtain ⟨tokens', htokens', _, hsymbols'⟩ := h'
  rw [htokens] at htokens'
  cases htokens'
  exact Document.symbols_injective (hsymbols.trans hsymbols'.symm)

/-- **`compile` decides the grammar language.** `compile source = .ok table` iff
    `Declares source.toList table.rules`; at most one document is `Derived` from a source; and `compile` returns an
    error of `family` iff `Faulty source.toList family`. -/
theorem compile_characterised (source : String) :
    (∀ table, compile source = .ok table ↔ Declares source.toList table.rules) ∧
    (∀ document document', Derived source.toList document → Derived source.toList document' →
      document = document') ∧
    (∀ family, (∃ error, compile source = .error error ∧ error.cause.family = family) ↔
      Faulty source.toList family) := by
  refine ⟨fun table => ⟨declares_of_compile, Declares.compile⟩, fun _ _ => Derived.unique, ?_⟩
  intro family
  constructor
  · rintro ⟨error, herror, rfl⟩
    exact faulty_of_compile herror
  · exact Faulty.compile

theorem compile_characterised_continued :
    Declares "s := \"a\"?\n\n | (s) # more".toList [⟨"s", .choice [.opt (.literal "a"), .ref "s"]⟩] ∧
      Faulty "| s".toList .leadingContinuation := by
  refine ⟨((compile_characterised _).1 ⟨_⟩).mp rfl, ((compile_characterised _).2.2 _).mp ?_⟩
  exact ⟨_, rfl, rfl⟩

end PegTree.Grammar
