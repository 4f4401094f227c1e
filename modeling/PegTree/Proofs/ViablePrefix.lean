import PegTree.Proofs.Reading
import PegTree.Proofs.SyntaxPlaces

/-!
# `Proofs.ViablePrefix` — a text is refused at the first token that cannot continue it

Symbols are viable when some document begins with them. A machine that takes one token at a time can find the
first token behind which they are not, if two things hold of it, and both do:

* **It never goes wrong late** (`exists_readable`). From every state the machine can still be brought to the end
  of a document, by closing what is open. So whatever it has taken is viable.
* **It never goes wrong early** (`Readable.cons_iff`, `linesFrom_of_derives`). A token is refused whatever comes
  behind it, while every document is read. So what it refuses is not viable.

`Halts` says of one state where the machine stops and that it stops for these reasons. A token keeps that
(`Halts.cons`), so it holds of every text that is refused (`halts_of_linesFrom`).
-/

namespace PegTree.Grammar

open Text

/-! ## Viable symbols -/

/-- `symbols` is a prefix of `document.symbols` for some `document`. -/
def Viable (symbols : List Symbol) : Prop :=
  ∃ document : Document, symbols <+: document.symbols

theorem Viable.of_isPrefix {xs ys : List Symbol} (h : Viable ys) (hbegins : xs <+: ys) : Viable xs := by
  obtain ⟨document, hdocument⟩ := h
  exact ⟨document, hbegins.trans hdocument⟩

/-- **`BreaksAt symbols k`**: `symbols.take k` is `Viable` and `symbols.take (k + 1)` is not. -/
structure BreaksAt (symbols : List Symbol) (k : Nat) : Prop where
  viable : Viable (symbols.take k)
  notViable : ¬ Viable (symbols.take (k + 1))

/-- `BreaksAt symbols` holds of one `k` at most, since `Viable` is closed under prefixes. -/
theorem BreaksAt.unique {symbols : List Symbol} {k k' : Nat} (h : BreaksAt symbols k)
    (h' : BreaksAt symbols k') : k' = k := by
  rcases Nat.lt_trichotomy k' k with hlt | heq | hgt
  · exact absurd (h.viable.of_isPrefix (List.take_prefix_take_left hlt)) h'.notViable
  · exact heq
  · exact absurd (h'.viable.of_isPrefix (List.take_prefix_take_left hgt)) h.notViable

/-! ## What a state can read -/

/-- `linesFrom` accepts `tokens` from `state`. -/
def Readable (state : State) (tokens : List Token) : Prop :=
  ∃ length lines, linesFrom length state tokens = .ok lines

/-- The state behind a step: `.finished` leads to `.lineStart`, `.refused` nowhere. -/
def Step.next? : Step → Option State
  | .moved state => some state
  | .finished _ => some .lineStart
  | .refused _ => none

/-- `Readable` by one step, whether the token moves the machine or finishes a line. -/
theorem Readable.cons_iff {state : State} {token : Token} {tokens : List Token} :
    Readable state (token :: tokens) ↔
      ∃ state', (state.step token).next? = some state' ∧ Readable state' tokens := by
  unfold Readable
  simp only [linesFrom]
  cases state.step token with
  | moved state' => simp [Step.next?]
  | refused expected => simp [Step.next?]
  | finished line =>
      simp only [Step.next?, Option.some.injEq, exists_eq_left']
      constructor
      · rintro ⟨length, lines, h⟩
        cases hmore : linesFrom length .lineStart tokens with
        | ok more => exact ⟨length, more, hmore⟩
        | error fault =>
            rw [hmore] at h
            cases h
      · rintro ⟨length, more, hmore⟩
        exact ⟨length, line :: more, by rw [hmore]⟩

/-- From `level.push last` the closing brackets for `outer` lead to the end of a line. -/
theorem exists_readable_afterTerm (opening : Opening) (level : Level) (last : Pattern)
    (outer : List Level) : ∃ tokens, Readable (.inside opening (level.push last) outer) tokens := by
  induction outer generalizing level last with
  | nil => exact ⟨[], 0, _, rfl⟩
  | cons around outer ih =>
      obtain ⟨tokens, hread⟩ := ih around (.oneOf (level.push last).alternatives)
      exact ⟨⟨.closeGroup, 0⟩ :: tokens, Readable.cons_iff.mpr ⟨_, rfl, hread⟩⟩

theorem exists_readable_inside (opening : Opening) (level : Level) (outer : List Level) :
    ∃ tokens, Readable (.inside opening level outer) tokens := by
  obtain ⟨tokens, hread⟩ := exists_readable_afterTerm opening level (.ref (String.ofList ['a'])) outer
  refine ⟨⟨.name ['a'], 0⟩ :: tokens, Readable.cons_iff.mpr ⟨_, ?_, hread⟩⟩
  rw [step_name]
  rfl

/-- **Every state is `Readable` on some tokens**, so the machine never accepts a token too many. -/
theorem exists_readable (state : State) : ∃ tokens, Readable state tokens := by
  cases state with
  | lineStart => exact ⟨[], 0, [], rfl⟩
  | named name =>
      obtain ⟨tokens, hread⟩ := exists_readable_inside (.declaration name) {} []
      exact ⟨⟨.define, 0⟩ :: tokens, Readable.cons_iff.mpr ⟨_, rfl, hread⟩⟩
  | inside opening level outer => exact exists_readable_inside opening level outer

/-! ## Where the machine stops -/

/-- **`Halts length state tokens fault`** for one of two reasons. `refused`: `before` can be continued, by `more`,
    but not by `token`, whatever comes `after`. `incomplete`: all of `tokens` can be continued, and the fault is at
    the end. -/
inductive Halts (length : Nat) (state : State) (tokens : List Token) : Fault → Prop where
  | refused {before after more : List Token} {token : Token} {expected : Expectation}
      (htokens : tokens = before ++ token :: after) (hbefore : Readable state (before ++ more))
      (hrefused : ∀ after, ¬ Readable state (before ++ token :: after)) :
      Halts length state tokens ⟨.unexpectedToken token.symbol expected, token.span⟩
  | incomplete {more : List Token} {expected : Expectation} (hmore : Readable state (tokens ++ more)) :
      Halts length state tokens ⟨.unexpectedEnd expected, ⟨length, length⟩⟩

/-- `Halts` passes from `tokens` to `token :: tokens`, if `token` is accepted. -/
theorem Halts.cons {length : Nat} {state state' : State} {token : Token} {tokens : List Token}
    {fault : Fault} (hstep : (state.step token).next? = some state')
    (h : Halts length state' tokens fault) : Halts length state (token :: tokens) fault := by
  have hread : ∀ ts, Readable state (token :: ts) ↔ Readable state' ts := by
    intro ts
    rw [Readable.cons_iff, hstep]
    simp only [Option.some.injEq, exists_eq_left']
  cases h with
  | @refused before _ _ _ _ htokens hbefore hrefused =>
      refine @Halts.refused _ _ _ (token :: before) _ _ _ _ (congrArg (token :: ·) htokens)
        ((hread _).mpr hbefore) ?_
      intro after hafter
      exact hrefused after ((hread _).mp hafter)
  | incomplete hmore => exact .incomplete ((hread _).mpr hmore)

/-- **Every fault of `linesFrom` `Halts` for one of these reasons.** Induction on `tokens`, with `exists_readable`
    at the token refused. -/
theorem halts_of_linesFrom {length : Nat} {state : State} {tokens : List Token} {fault : Fault}
    (h : linesFrom length state tokens = .error fault) : Halts length state tokens fault := by
  fun_induction linesFrom length state tokens with
  | case1 => cases h
  | case2 state expected _ =>
      cases h
      obtain ⟨more, hmore⟩ := exists_readable state
      exact .incomplete hmore
  | case3 state token tokens state' hstep ih => exact (ih h).cons (by rw [hstep]; rfl)
  | case4 => cases h
  | case5 state token tokens line hstep fault' hfault ih =>
      cases h
      exact (ih hfault).cons (by rw [hstep]; rfl)
  | case6 state token tokens expected hstep =>
      cases h
      obtain ⟨more, hmore⟩ := exists_readable state
      refine @Halts.refused _ _ _ [] _ _ _ _ rfl hmore fun after hafter => ?_
      obtain ⟨state', hnext, _⟩ := Readable.cons_iff.mp hafter
      rw [hstep] at hnext
      cases hnext

/-! ## Tokens and documents -/

theorem exists_document {tokens : List Token} (h : Readable .lineStart tokens) :
    ∃ document : Document, document.symbols = tokens.map (·.symbol) := by
  obtain ⟨length, lines, hread⟩ := h
  obtain ⟨document, hsymbols, _⟩ := derives_of_linesFrom length .lineStart hread
  exact ⟨document, hsymbols⟩

theorem viable_of_readable {before more : List Token} (h : Readable .lineStart (before ++ more)) :
    Viable (before.map (·.symbol)) := by
  obtain ⟨document, hsymbols⟩ := exists_document h
  refine ⟨document, ?_⟩
  rw [hsymbols, List.map_append]
  exact List.prefix_append _ _

/-- Tokens that are `Readable` with no continuation have symbols that are not `Viable`. -/
theorem not_viable {before : List Token} (h : ∀ after, ¬ Readable .lineStart (before ++ after)) :
    ¬ Viable (before.map (·.symbol)) := by
  rintro ⟨document, rest, hrest⟩
  -- the rest of the document as tokens; where they stand does not matter
  let after : List Token := rest.map fun symbol => ⟨symbol, 0⟩
  have hsymbols : (before ++ after).map (·.symbol) = document.symbols := by
    rw [← hrest, List.map_append, List.map_map]
    simp [Function.comp_def]
  obtain ⟨lines, hread, _⟩ := linesFrom_of_derives 0 document.first document.rest hsymbols
  exact h after ⟨0, lines, hread⟩

/-! ## The whole text -/

/-- **A text that is no document is refused at the break of viability.** Either `BreaksAt symbols` holds of exactly
    one `k`, and the error has the cause `.unexpectedToken` and the span of `tokens[k]`, with its position counted
    up to `token.start`; or every prefix is `Viable`, and the error is `.unexpectedEnd` at `⟨length, length⟩`. -/
theorem compile_structural_fault {source : String} {tokens : List Token}
    (htokens : tokenize source.toList = .ok tokens) (hescapes : Decodable tokens)
    (hstructure : ∀ document : Document, document.symbols ≠ tokens.map (·.symbol)) :
    let symbols := tokens.map (·.symbol)
    let length := utf8Length source.toList
    (∃ k token expected, tokens[k]? = some token ∧ (∀ k', BreaksAt symbols k' ↔ k' = k) ∧
      ∃ error, compile source = .error error ∧ error.cause = .unexpectedToken token.symbol expected ∧
        error.span = token.span ∧
        (∃ before, before <+: source.toList ∧ utf8Length before = token.start ∧
          error.position = Position.after before) ∧
        error = Fault.locate source.toList ⟨.unexpectedToken token.symbol expected, token.span⟩) ∨
    ((∀ k, Viable (symbols.take k)) ∧ ∃ expected error,
      compile source = .error error ∧ error.cause = .unexpectedEnd expected ∧ error.span = ⟨length, length⟩ ∧
        error.position = Position.after source.toList ∧
        error = Fault.locate source.toList ⟨.unexpectedEnd expected, ⟨length, length⟩⟩) := by
  intro symbols length
  cases hread : linesFrom length .lineStart tokens with
  | ok lines =>
      obtain ⟨document, hsymbols⟩ := exists_document ⟨length, lines, hread⟩
      exact absurd hsymbols (hstructure document)
  | error fault =>
      have hcompile : compile source = .error (fault.locate source.toList) := by
        refine compile_of_fault htokens ?_
        simp only [rulesOfTokens, (escapeFault?_eq_none_iff tokens).mpr hescapes]
        rw [hread]
      cases halts_of_linesFrom hread with
      | @refused before after more token expected heq hbefore hrefused =>
          have hbreaks : BreaksAt symbols before.length := by
            have hsymbols : symbols = before.map (·.symbol) ++ token.symbol :: after.map (·.symbol) := by
              simp [symbols, heq]
            have htake : symbols.take before.length = before.map (·.symbol) := by
              rw [hsymbols, List.take_left' (List.length_map _)]
            have htake' : symbols.take (before.length + 1) = (before ++ [token]).map (·.symbol) := by
              rw [hsymbols, List.append_cons, List.take_left' (by simp), List.map_append]
              rfl
            refine ⟨htake ▸ viable_of_readable hbefore, htake' ▸ not_viable fun more => ?_⟩
            rw [List.append_assoc]
            exact hrefused more
          have hposition := (locatedIn_of_compile hcompile).position
          refine Or.inl ⟨before.length, token, expected, ?_, fun k' => ⟨hbreaks.unique, ?_⟩, _, hcompile, rfl, rfl,
            hposition, rfl⟩
          · rw [heq, List.getElem?_append_right (Nat.le_refl _), Nat.sub_self]
            rfl
          · rintro rfl
            exact hbreaks
      | incomplete hmore =>
          have hviable : Viable symbols := viable_of_readable hmore
          have hposition := LineIndex.position_of_le (Nat.le_refl (utf8Length source.toList))
          exact Or.inr ⟨fun k => hviable.of_isPrefix (List.take_prefix k _), _, _, hcompile, rfl, rfl, hposition, rfl⟩

/-- An empty alternative in its inner group. -/
def emptyAlternative : String :=
  "s := (\"a\" (t? | ) | u)\n"

def emptyAlternativeTokens : List Token :=
  [⟨.name ['s'], 0⟩, ⟨.define, 2⟩, ⟨.openGroup, 5⟩, ⟨.literal ['a'], 6⟩, ⟨.openGroup, 10⟩, ⟨.name ['t'], 11⟩,
    ⟨.question, 12⟩, ⟨.pipe, 14⟩, ⟨.closeGroup, 16⟩, ⟨.pipe, 18⟩, ⟨.name ['u'], 20⟩, ⟨.closeGroup, 21⟩,
    ⟨.newline, 22⟩]

/-- `BreaksAt` the bracket behind the first pipe, where the machine expects a `.term`. -/
theorem compile_structural_fault_emptyAlternative :
    tokenize emptyAlternative.toList = .ok emptyAlternativeTokens ∧
    Decodable emptyAlternativeTokens ∧
    (∀ document : Document, document.symbols ≠ emptyAlternativeTokens.map (·.symbol)) ∧
    (∀ k, BreaksAt (emptyAlternativeTokens.map (·.symbol)) k ↔ k = 8) ∧
    compile emptyAlternative = .error (Fault.locate emptyAlternative.toList
      ⟨.unexpectedToken .closeGroup .term, ⟨16, 17⟩⟩) := by
  have htokens : tokenize emptyAlternative.toList = .ok emptyAlternativeTokens := rfl
  have hescapes : Decodable emptyAlternativeTokens :=
    (escapeFault?_eq_none_iff emptyAlternativeTokens).mp rfl
  have hcompile : compile emptyAlternative = .error (Fault.locate emptyAlternative.toList
      ⟨.unexpectedToken .closeGroup .term, ⟨16, 17⟩⟩) := rfl
  have hstructure : ∀ document : Document, document.symbols ≠ emptyAlternativeTokens.map (·.symbol) := by
    intro document h
    obtain ⟨lines, hread, _⟩ := linesFrom_of_derives 0 document.first document.rest h.symm
    cases hread
  refine ⟨htokens, hescapes, hstructure, ?_, hcompile⟩
  rcases compile_structural_fault htokens hescapes hstructure with
    ⟨k, token, expected, htoken, hbreaks, _, hfault, -, -, -, rfl⟩ | ⟨_, expected, _, hfault, -, -, -, rfl⟩
  · -- only one token has the span of the error
    have herror := Except.error.inj (hcompile.symm.trans hfault)
    have hspan : (⟨16, 17⟩ : Span) = token.span := congrArg (·.span) herror
    have hstart : token.start = 16 := (congrArg Span.start hspan).symm
    have hk : k < emptyAlternativeTokens.length := (List.getElem?_eq_some_iff.mp htoken).1
    have honly : ∀ k < emptyAlternativeTokens.length,
        emptyAlternativeTokens[k]?.map (·.start) = some 16 → k = 8 := by decide
    have heq : k = 8 := honly k hk (by rw [htoken, Option.map_some, hstart])
    exact heq ▸ hbreaks
  · cases hcompile.symm.trans hfault

end PegTree.Grammar
