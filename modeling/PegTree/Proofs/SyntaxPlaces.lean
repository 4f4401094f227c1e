import PegTree.Proofs.BadEscapes

/-!
# `Proofs.SyntaxPlaces` — where the errors of a grammar text are

Every step that can refuse a text takes the span of its error from somewhere else: the lexer from the place where it
stops, the check of the escapes from inside a literal, the reader of lines from a token, and what comes last from a
pipe that was read long before. All of these are pieces of the text.

* **Reading lines only hands spans on** (`linesFrom_span`, `linesFrom_holds`): what is true of the spans of all tokens
  and of the end of the text is true of the span of an error and of the pipes that lines start with.
* **Every error covers a piece of the text** (`inText_of_tokensFrom`, `inText_of_rulesOfTokens`).
* **Its position is counted** (`position_counts`), because the start of a piece lies between two characters.
-/

namespace PegTree.Grammar

open Text

/-! ## Spans that are handed on -/

section Spans

variable {P : Span → Prop} {length : Nat}

/-- `P pipe`, if the opening is `.continuation pipe`. -/
def Opening.Holds (P : Span → Prop) : Opening → Prop
  | .declaration _ => True
  | .continuation pipe => P pipe

/-- `Opening.Holds P` of the line that `state` is inside, if it is inside one. -/
def State.Holds (P : Span → Prop) : State → Prop
  | .lineStart => True
  | .named _ => True
  | .inside opening _ _ => opening.Holds P

/-- `Holds P` of the state moved to, or of the line that is finished. -/
def Step.Holds (P : Span → Prop) : Step → Prop
  | .moved state => state.Holds P
  | .finished line => line.opening.Holds P
  | .refused _ => True

/-- `state.step token` opens a line at `token.span`, or keeps the opening it has. -/
theorem State.Holds.step {state : State} {token : Token} (h : state.Holds P) (htoken : P token.span) :
    (state.step token).Holds P := by
  cases state with
  | lineStart =>
      rw [State.step]
      split
      · trivial
      · exact htoken
      · trivial
      · trivial
  | named name =>
      rw [State.step]
      split
      · trivial
      · trivial
  | inside opening level outer =>
      obtain ⟨complete, terms⟩ := level
      obtain ⟨symbol, start⟩ := token
      cases terms with
      | nil =>
          cases symbol with
          | literal _ | name _ | openGroup => exact h
          | _ => trivial
      | cons last terms =>
          cases symbol with
          | define => trivial
          | closeGroup =>
              cases outer with
              | nil => trivial
              | cons around outer => exact h
          | newline =>
              cases outer with
              | nil => exact h
              | cons around outer => trivial
          | _ => exact h

theorem State.Holds.finish {state : State} {lines : List Line} (h : state.Holds P)
    (hfinish : state.finish = .ok lines) : ∀ line ∈ lines, line.opening.Holds P := by
  cases state with
  | lineStart =>
      cases hfinish
      exact List.forall_mem_nil _
  | named name => cases hfinish
  | inside opening level outer =>
      obtain ⟨complete, terms⟩ := level
      cases terms with
      | nil => cases hfinish
      | cons last terms =>
          cases outer with
          | nil =>
              cases hfinish
              exact List.forall_mem_singleton.mpr h
          | cons around outer => cases hfinish

/-- `P` of the tokens' spans passes to the openings of the lines that `linesFrom` returns. -/
theorem linesFrom_holds {state : State} {tokens : List Token} {lines : List Line}
    (htokens : ∀ token ∈ tokens, P token.span) (hstate : state.Holds P)
    (h : linesFrom length state tokens = .ok lines) : ∀ line ∈ lines, line.opening.Holds P := by
  fun_induction linesFrom length state tokens generalizing lines with
  | case1 state lines' hfinish =>
      cases h
      exact hstate.finish hfinish
  | case2 => cases h
  | case3 state token tokens state' hstep ih =>
      obtain ⟨htoken, hmore⟩ := List.forall_mem_cons.mp htokens
      have hnext := hstate.step htoken
      rw [hstep] at hnext
      exact ih hmore hnext h
  | case4 state token tokens line hstep lines' hlines ih =>
      obtain ⟨htoken, hmore⟩ := List.forall_mem_cons.mp htokens
      have hline := hstate.step htoken
      rw [hstep] at hline
      cases h
      exact List.forall_mem_cons.mpr ⟨hline, ih hmore trivial hlines⟩
  | case5 => cases h
  | case6 => cases h

/-- `P` of the tokens' spans and of `⟨length, length⟩` passes to the span of a fault of `linesFrom`. -/
theorem linesFrom_span {state : State} {tokens : List Token} {fault : Fault}
    (htokens : ∀ token ∈ tokens, P token.span) (hend : P ⟨length, length⟩)
    (h : linesFrom length state tokens = .error fault) : P fault.span := by
  fun_induction linesFrom length state tokens with
  | case1 => cases h
  | case2 =>
      cases h
      exact hend
  | case3 _ _ _ _ _ ih => exact ih (List.forall_mem_cons.mp htokens).2 h
  | case4 => cases h
  | case5 _ _ _ _ _ _ hfault ih =>
      cases h
      exact ih (List.forall_mem_cons.mp htokens).2 hfault
  | case6 =>
      cases h
      exact (List.forall_mem_cons.mp htokens).1

theorem rulesOf_span {lines : List Line} {fault : Fault} (hlines : ∀ line ∈ lines, line.opening.Holds P)
    (hend : P ⟨length, length⟩) (h : rulesOf length lines = .error fault) : P fault.span := by
  fun_cases rulesOf length lines with
  | case1 =>
      cases h
      exact hend
  | case2 pipe alternatives lines =>
      cases h
      exact (List.forall_mem_cons.mp hlines).1
  | case3 => cases h

end Spans

/-! ## Pieces of the text -/

variable {text : List Char} {tokens : List Token} {fault : Fault}

/-- The fault of `tokensFrom` has the span of a prefix of the rest, by `stuck_of_tokensFrom`. -/
theorem inText_of_tokensFrom (h : tokensFrom text 0 0 = .error fault) : fault.span.InText text := by
  obtain ⟨before, rest, _, rfl, _, hstuck⟩ := stuck_of_tokensFrom h
  rw [Nat.zero_add] at hstuck
  cases hstuck with
  | @unknown c after hrest _ _ =>
      refine ⟨[c], before, after, by rw [hrest, List.singleton_append], ?_⟩
      rw [utf8Length_append]
      rfl
  | @unterminated run hrun _ _ _ =>
      obtain ⟨after, rfl⟩ := hrun
      exact ⟨run, before, after, rfl, by rw [utf8Length_append]⟩

/-- The fault of `rulesOfTokens` has the span of a bad escape, of a token or of a pipe, or is empty at the end. -/
theorem inText_of_rulesOfTokens (htokens : tokenize text = .ok tokens)
    (h : rulesOfTokens (utf8Length text) tokens = .error fault) : fault.span.InText text := by
  have hcovers : ∀ token ∈ tokens, token.span.InText text := by
    intro token hmem
    obtain ⟨before, after, htext, hspan⟩ := (cuts_of_tokenize htokens).placed.slice token hmem
    exact ⟨token.symbol.spelling, before, after, htext, hspan⟩
  have hend : Span.InText text ⟨utf8Length text, utf8Length text⟩ := ⟨[], covers_end text⟩
  rw [rulesOfTokens] at h
  cases hfault : escapeFault? tokens with
  | some bad =>
      obtain ⟨_, _, _, _, _, c, _, _, _, _, rfl⟩ := exists_of_escapeFault? hfault
      have hbad := (escapeFault?_eq_some_iff htokens).mp hfault
      rw [hfault] at h
      cases h
      exact ⟨_, hbad.covers⟩
  | none =>
      simp only [hfault] at h
      cases hlines : linesFrom (utf8Length text) .lineStart tokens with
      | error other =>
          rw [hlines] at h
          cases h
          exact linesFrom_span hcovers hend hlines
      | ok lines =>
          rw [hlines] at h
          have hstart : State.Holds (Span.InText text) .lineStart := trivial
          exact rulesOf_span (linesFrom_holds hcovers hstart hlines) hend h

/-! ## Located errors -/

/-- **`error.LocatedIn source`**: `error.span` is a valid range of bytes of `source`, and `error.position` is
    `Position.after` the characters before it. -/
structure SyntaxError.LocatedIn (source : String) (error : SyntaxError) : Prop where
  ordered : error.span.start ≤ error.span.stop
  inside : error.span.stop ≤ source.utf8ByteSize
  start_isValid : String.Pos.Raw.IsValid source ⟨error.span.start⟩
  stop_isValid : String.Pos.Raw.IsValid source ⟨error.span.stop⟩
  position : ∃ before, before <+: source.toList ∧ utf8Length before = error.span.start ∧
    error.position = Position.after before

theorem Fault.locatedIn {source : String} (h : fault.span.InText source.toList) :
    (fault.locate source.toList).LocatedIn source := by
  obtain ⟨piece, before, after, htext, hspan⟩ := h
  have hstart : before <+: source.toList := ⟨_, htext.symm⟩
  have hstop : before ++ piece <+: source.toList := ⟨after, by rw [htext, List.append_assoc]⟩
  have hposition : (fault.locate source.toList).position = Position.after before := by
    rw [Fault.locate, hspan, htext]
    exact LineIndex.position_append before _
  have hlocate : (fault.locate source.toList).span = ⟨utf8Length before, utf8Length (before ++ piece)⟩ := hspan
  constructor
  · rw [hlocate]
    exact utf8Length_le_of_isPrefix (List.prefix_append _ _)
  · rw [hlocate, ← utf8Length_toList]
    exact utf8Length_le_of_isPrefix hstop
  · exact isValid_iff.mpr ⟨before, hstart, by rw [hlocate]⟩
  · exact isValid_iff.mpr ⟨before ++ piece, hstop, by rw [hlocate]⟩
  · exact ⟨before, hstart, by rw [hlocate], hposition⟩

theorem locatedIn_of_tokenize {source : String} {error : SyntaxError}
    (h : tokenize source.toList = .error error) : error.LocatedIn source := by
  rw [tokenize] at h
  cases hread : tokensFrom source.toList 0 0 with
  | ok tokens =>
      rw [hread] at h
      cases h
  | error fault =>
      rw [hread] at h
      cases h
      exact Fault.locatedIn (inText_of_tokensFrom hread)

theorem locatedIn_of_compile {source : String} {error : SyntaxError} (h : compile source = .error error) :
    error.LocatedIn source := by
  rw [compile, compileChars] at h
  cases htokens : tokenize source.toList with
  | error other =>
      rw [htokens] at h
      cases h
      exact locatedIn_of_tokenize htokens
  | ok tokens =>
      simp only [htokens] at h
      cases hrules : rulesOfTokens (utf8Length source.toList) tokens with
      | ok rules =>
          rw [hrules] at h
          cases h
      | error fault =>
          rw [hrules] at h
          cases h
          exact Fault.locatedIn (inText_of_rulesOfTokens htokens hrules)

/-! ## The whole text -/

/-- `position` is strictly monotone on the valid offsets. -/
theorem position_before {source : String} {first second : Nat} (hfirst : String.Pos.Raw.IsValid source ⟨first⟩)
    (hsecond : String.Pos.Raw.IsValid source ⟨second⟩) (hlt : first < second) :
    ((LineIndex.ofText source.toList).position first).Before
      ((LineIndex.ofText source.toList).position second) := by
  obtain ⟨a, ha, rfl⟩ := isValid_iff.mp hfirst
  obtain ⟨b, hb, rfl⟩ := isValid_iff.mp hsecond
  obtain ⟨between, rfl⟩ : a <+: b := by
    rcases List.prefix_or_prefix_of_prefix ha hb with hab | hba
    · exact hab
    · exact absurd (utf8Length_le_of_isPrefix hba) (Nat.not_le.mpr hlt)
  have hne : between ≠ [] := by
    rintro rfl
    rw [List.append_nil] at hlt
    exact Nat.lt_irrefl _ hlt
  obtain ⟨after, hsource⟩ := hb
  rw [← hsource, LineIndex.position_append, List.append_assoc, LineIndex.position_append]
  exact Position.after_before a hne

/-- **Positions are exact.** At a valid offset, `position` is `Position.after` the prefix of that length; at or past
    `source.utf8ByteSize` it is `Position.after` all of `source`. `searchLine?` returns the line of every offset,
    `position` is strictly monotone on valid offsets, and every error of `tokenize` and `compile` is
    `LocatedIn source`. -/
theorem position_counts (source : String) :
    (∀ offset, String.Pos.Raw.IsValid source ⟨offset⟩ →
      ∃ before, before <+: source.toList ∧ utf8Length before = offset ∧
        (LineIndex.ofText source.toList).position offset = Position.after before) ∧
    (∀ offset, source.utf8ByteSize ≤ offset →
      (LineIndex.ofText source.toList).position offset = Position.after source.toList) ∧
    (∀ offset, (LineIndex.ofText source.toList).searchLine? (min offset source.utf8ByteSize)
      = some ((LineIndex.ofText source.toList).position offset).line) ∧
    (∀ first second, String.Pos.Raw.IsValid source ⟨first⟩ → String.Pos.Raw.IsValid source ⟨second⟩ →
      first < second → Position.Before ((LineIndex.ofText source.toList).position first)
        ((LineIndex.ofText source.toList).position second)) ∧
    (∀ error, tokenize source.toList = .error error ∨ compile source = .error error →
      error.LocatedIn source) := by
  refine ⟨fun offset hoffset => ?_, fun offset hoffset => ?_, fun offset => ?_, fun _ _ => position_before,
    fun error herror => ?_⟩
  · obtain ⟨before, ⟨after, hsource⟩, rfl⟩ := isValid_iff.mp hoffset
    refine ⟨before, ⟨after, hsource⟩, rfl, ?_⟩
    rw [← hsource]
    exact LineIndex.position_append before after
  · rw [← utf8Length_toList] at hoffset
    exact LineIndex.position_of_le hoffset
  · rw [← utf8Length_toList]
    exact LineIndex.searchLine?_ofText _ _
  · rcases herror with herror | herror
    · exact locatedIn_of_tokenize herror
    · exact locatedIn_of_compile herror

/-- `'^'` is no symbol; it stands on the second line, behind a character of three bytes. -/
theorem position_counts_secondLine :
    ∃ error, compile "a := \"ö\"\nb := \"→\" ^" = .error error ∧ error.LocatedIn "a := \"ö\"\nb := \"→\" ^" ∧
      error.span = ⟨21, 22⟩ ∧ error.position = ⟨1, 9⟩ := by
  have hrefused : ∃ error, compile "a := \"ö\"\nb := \"→\" ^" = .error error ∧ error.span = ⟨21, 22⟩ ∧
      error.position = ⟨1, 9⟩ := ⟨_, rfl, rfl, rfl⟩
  obtain ⟨error, herror, hplaces⟩ := hrefused
  obtain ⟨_, _, _, _, hlocated⟩ := position_counts "a := \"ö\"\nb := \"→\" ^"
  exact ⟨error, herror, hlocated error (.inr herror), hplaces⟩

end PegTree.Grammar
