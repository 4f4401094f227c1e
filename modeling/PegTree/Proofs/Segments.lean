import PegTree.Proofs.Lexing

/-!
# `Proofs.Segments` — a text is made of symbols, blanks and comments

The lexer walks over a text and forgets what it passes over. `Cuts` keeps it: a text is cut into tokens when it is
blanks, comments and the spellings of the tokens, one after the other, such that no name goes on behind its end and
every comment goes to the end of its line. It says so of a piece of text with more text behind it, so that a text
can be taken apart at a token and put together again.

* **The lexer cuts texts in this way and no other** (`cuts_of_tokensFrom`, `Cuts.tokensFrom_eq`), and every text
  as far as it can be cut (`exists_cuts`).
* **A text can be taken apart at its tokens** (`Cuts.split`, `Cuts.split_start`, `Cuts.split_stop`), and parts
  that stand apart can be put together (`Cuts.append`).
* **Something can be put in between** that has no symbols (`Cuts.append_quiet`), or a newline
  (`Cuts.before_newline`).
-/

namespace PegTree.Text

/-- Prefixes of one text with equal `utf8Length` are equal. -/
theorem append_inj_of_utf8Length {a b c d : List Char} (h : a ++ b = c ++ d)
    (hlength : utf8Length a = utf8Length c) : a = c ∧ b = d := by
  induction a generalizing c with
  | nil =>
      cases c with
      | nil => exact ⟨rfl, h⟩
      | cons x c =>
          have hpos := x.utf8Size_pos
          simp only [utf8Length] at hlength
          omega
  | cons x a ih =>
      cases c with
      | nil =>
          have hpos := x.utf8Size_pos
          simp only [utf8Length] at hlength
          omega
      | cons y c =>
          obtain ⟨rfl, hrest⟩ := List.cons.inj h
          have hshorter : utf8Length a = utf8Length c := by
            simp only [utf8Length] at hlength
            omega
          obtain ⟨rfl, rfl⟩ := ih hrest hshorter
          exact ⟨rfl, rfl⟩

end PegTree.Text

namespace PegTree.Grammar

open Text

/-! ## Segments -/

/-- `text` is `[]` or starts with `'\n'`. -/
def EndsLine (text : List Char) : Prop :=
  ∀ c, text.head? = some c → c = '\n'

theorem endsLine_nil : EndsLine [] := by
  intro c hc
  cases hc

theorem endsLine_newline (text : List Char) : EndsLine ('\n' :: text) := by
  intro c hc
  cases hc
  rfl

/-- **`Cuts tail offset text tokens`**: `text`, which starts at byte `offset` and is followed by `tail`, is a
    succession of blanks, comments and the spellings of `tokens`. A comment reaches `EndsLine`, and a symbol is
    `Apart` from what follows it, `tail` included. -/
inductive Cuts (tail : List Char) : (offset : Nat) → (text : List Char) → List Token → Prop where
  | nil {offset} : Cuts tail offset [] []
  | blank {offset c text tokens} (hblank : isBlank c = true) :
      Cuts tail (offset + c.utf8Size) text tokens → Cuts tail offset (c :: text) tokens
  | comment {offset run text tokens} (hrun : '\n' ∉ run) (hend : EndsLine (text ++ tail)) :
      Cuts tail (offset + utf8Length ('#' :: run)) text tokens →
      Cuts tail offset ('#' :: run ++ text) tokens
  | symbol {offset symbol text tokens} (hspellable : symbol.Spellable)
      (hapart : Apart symbol (text ++ tail)) :
      Cuts tail (offset + utf8Length symbol.spelling) text tokens →
      Cuts tail offset (symbol.spelling ++ text) (⟨symbol, offset⟩ :: tokens)

variable {tail text : List Char} {offset : Nat} {tokens : List Token}

theorem Cuts.blanks {run : List Char} (hrun : ∀ c ∈ run, isBlank c = true)
    (h : Cuts tail (offset + utf8Length run) text tokens) : Cuts tail offset (run ++ text) tokens := by
  induction run generalizing offset with
  | nil => exact h
  | cons c run ih =>
      obtain ⟨hc, hmore⟩ := List.forall_mem_cons.mp hrun
      refine .blank hc (ih hmore ?_)
      rw [Nat.add_assoc]
      exact h

/-- `offset` enters only `Token.start`: the symbols are the same at any other. -/
theorem Cuts.shift (h : Cuts tail offset text tokens) (offset' : Nat) :
    ∃ tokens', Cuts tail offset' text tokens' ∧ tokens'.map (·.symbol) = tokens.map (·.symbol) := by
  induction h generalizing offset' with
  | nil => exact ⟨[], .nil, rfl⟩
  | blank hblank _ ih =>
      obtain ⟨tokens', hcuts, hsymbols⟩ := ih _
      exact ⟨tokens', .blank hblank hcuts, hsymbols⟩
  | comment hrun hend _ ih =>
      obtain ⟨tokens', hcuts, hsymbols⟩ := ih _
      exact ⟨tokens', .comment hrun hend hcuts, hsymbols⟩
  | symbol hspellable hapart _ ih =>
      obtain ⟨tokens', hcuts, hsymbols⟩ := ih _
      exact ⟨_, .symbol hspellable hapart hcuts, by rw [List.map_cons, List.map_cons, hsymbols]⟩

/-! ## The lexer -/

theorem tokensFrom_skipped {c : Char} {run rest : List Char}
    (h : pieceAt c (run ++ rest) = .skipped (c :: run)) :
    tokensFrom (c :: (run ++ rest)) 0 offset = tokensFrom rest 0 (offset + utf8Length (c :: run)) := by
  rw [tokensFrom, h]
  show tokensFrom (run ++ rest) run.length (offset + c.utf8Size) = _
  rw [tokensFrom_seen, utf8Length, Nat.add_assoc]

theorem tokensFrom_blankRun {c : Char} (h : isBlank c = true) :
    tokensFrom (c :: text) 0 offset
      = tokensFrom (text.dropWhile isBlank) 0 (offset + utf8Length (c :: text.takeWhile isBlank)) := by
  have hsplit : text.takeWhile isBlank ++ text.dropWhile isBlank = text :=
    List.takeWhile_append_dropWhile
  have hpiece : pieceAt c (text.takeWhile isBlank ++ text.dropWhile isBlank)
      = .skipped (c :: text.takeWhile isBlank) := by
    rw [hsplit, pieceAt, if_pos h]
  have hskipped := @tokensFrom_skipped offset c _ _ hpiece
  rwa [hsplit] at hskipped

/-- One blank is passed over, although `pieceAt` takes the whole run of blanks. -/
theorem tokensFrom_blank {c : Char} (h : isBlank c = true) :
    tokensFrom (c :: text) 0 offset = tokensFrom text 0 (offset + c.utf8Size) := by
  rw [tokensFrom_blankRun h]
  cases text with
  | nil => rfl
  | cons d text =>
      by_cases hd : isBlank d = true
      · rw [tokensFrom_blankRun hd, List.takeWhile_cons_of_pos hd, List.dropWhile_cons_of_pos hd]
        simp only [utf8Length, Nat.add_assoc]
      · rw [List.takeWhile_cons_of_neg hd, List.dropWhile_cons_of_neg hd]
        rfl

theorem pieceAt_comment {run : List Char} (hrun : '\n' ∉ run) (hend : EndsLine text) :
    pieceAt '#' (run ++ text) = .skipped ('#' :: run) := by
  have hnone : text.takeWhile (· != '\n') = [] := by
    refine takeWhile_eq_nil fun c hc => ?_
    rw [hend c hc]
    rfl
  have hall : ∀ c ∈ run, (c != '\n') = true := by
    intro c hc
    rw [bne_iff_ne]
    rintro rfl
    exact hrun hc
  rw [pieceAt, if_neg (by decide), if_neg (by decide), if_pos rfl, List.takeWhile_append_of_pos hall,
    hnone, List.append_nil]

/-- `tokensFrom` on `text ++ tail` is `tokens`, followed by `tokensFrom` on `tail`. -/
theorem Cuts.tokensFrom_append (h : Cuts tail offset text tokens) :
    tokensFrom (text ++ tail) 0 offset
      = (tokensFrom tail 0 (offset + utf8Length text)).map (tokens ++ ·) := by
  induction h with
  | nil =>
      rw [List.nil_append, utf8Length, Nat.add_zero]
      cases tokensFrom tail 0 _ <;> rfl
  | blank hblank _ ih => rw [List.cons_append, tokensFrom_blank hblank, ih, utf8Length, Nat.add_assoc]
  | comment hrun hend _ ih =>
      rw [List.append_assoc, List.cons_append, tokensFrom_skipped (pieceAt_comment hrun hend), ih,
        utf8Length_append, Nat.add_assoc]
  | symbol hspellable hapart _ ih =>
      rw [List.append_assoc, tokensFrom_spelling hspellable hapart, ih, utf8Length_append, Nat.add_assoc]
      cases tokensFrom tail 0 _ <;> rfl

/-- **`Cuts [] offset text tokens` implies `tokensFrom text 0 offset = .ok tokens`.** -/
theorem Cuts.tokensFrom_eq (h : Cuts [] offset text tokens) : tokensFrom text 0 offset = .ok tokens := by
  have hread := h.tokensFrom_append
  rw [List.append_nil, tokensFrom] at hread
  rw [hread]
  show Except.ok (tokens ++ []) = _
  rw [List.append_nil]

theorem append_of_literalBody {rest body : List Char} (h : literalBody rest = (body, true)) :
    ∃ after, rest = body ++ '"' :: after := by
  fun_induction literalBody rest generalizing body with
  | case1 => cases h
  | case2 => cases h
  | case3 => cases h
  | case4 c rest _ body' closed hbody ih =>
      cases h
      obtain ⟨after, rfl⟩ := ih hbody
      exact ⟨after, rfl⟩
  | case5 =>
      cases h
      exact ⟨_, rfl⟩
  | case6 => cases h
  | case7 c rest _ _ _ _ body' closed hbody ih =>
      cases h
      obtain ⟨after, rfl⟩ := ih hbody
      exact ⟨after, rfl⟩

/-- `pieceAt c rest = .symbol symbol` gives `symbol.spelling <+: c :: rest`, with `Apart` behind it. -/
theorem spelling_of_pieceAt {c : Char} {rest : List Char} {symbol : Symbol}
    (h : pieceAt c rest = .symbol symbol) :
    ∃ after, c :: rest = symbol.spelling ++ after ∧ Apart symbol after := by
  revert h
  fun_cases pieceAt c rest with
  | case1 | case3 | case5 | case13 => rintro ⟨⟩
  | case2 =>
      rintro ⟨⟩
      refine ⟨rest.dropWhile isNamePart, ?_, ?_⟩
      · rw [Symbol.spelling, List.cons_append, List.takeWhile_append_dropWhile]
      · intro _ _ d hd
        have hnot := List.head?_dropWhile_not isNamePart rest
        rw [hd] at hnot
        exact hnot
  | case4 _ _ _ hquote body hbody =>
      rintro ⟨⟩
      obtain ⟨after, rfl⟩ := append_of_literalBody hbody
      exact ⟨after, by simp [Symbol.spelling, hquote], by rintro _ ⟨⟩⟩
  | case12 _ _ _ _ _ _ _ _ _ _ hdefine =>
      rintro ⟨⟩
      rw [Bool.and_eq_true, beq_iff_eq, decide_eq_true_eq, List.head?_eq_some_iff] at hdefine
      obtain ⟨rfl, after, rfl⟩ := hdefine
      exact ⟨after, rfl, by rintro _ ⟨⟩⟩
  | _ =>
      rintro ⟨⟩
      subst_vars
      exact ⟨rest, rfl, by rintro _ ⟨⟩⟩

/-- `pieceAt c rest = .skipped piece` gives a prefix `piece` that is all blanks, or a comment up to `EndsLine`. -/
theorem skipped_of_pieceAt {c : Char} {rest piece : List Char} (h : pieceAt c rest = .skipped piece) :
    ∃ run after, piece = c :: run ∧ rest = run ++ after ∧
      ((∀ d ∈ c :: run, isBlank d = true) ∨ (c = '#' ∧ '\n' ∉ run ∧ EndsLine after)) := by
  revert h
  fun_cases pieceAt c rest with
  | case1 hblank =>
      rintro ⟨⟩
      refine ⟨_, rest.dropWhile isBlank, rfl, List.takeWhile_append_dropWhile.symm, Or.inl ?_⟩
      exact List.forall_mem_cons.mpr ⟨hblank, fun d hd => List.mem_takeWhile_imp hd⟩
  | case3 _ _ hcomment =>
      rintro ⟨⟩
      refine ⟨_, rest.dropWhile (· != '\n'), rfl, List.takeWhile_append_dropWhile.symm, Or.inr ⟨hcomment, ?_, ?_⟩⟩
      · intro hmem
        have hne := List.mem_takeWhile_imp hmem
        simp at hne
      · intro d hd
        have hnot := List.head?_dropWhile_not (· != '\n') rest
        rw [hd] at hnot
        simpa using hnot
  | case2 | case4 | case5 | case6 | case7 | case8 | case9 | case10 | case11 | case12 | case13 => rintro ⟨⟩

theorem length_spelling_pos {symbol : Symbol} (h : symbol.Spellable) : 0 < symbol.spelling.length := by
  obtain ⟨c, cs, hspelling, _⟩ := pieceAt_spelling h (apart_nil symbol)
  rw [hspelling]
  exact Nat.succ_pos _

/-- Every `text` is `before ++ rest` with `Cuts rest offset before tokens`, where `pieceAt` finds no symbol at
    `rest`. -/
theorem exists_cuts (text : List Char) (offset : Nat) :
    ∃ before rest tokens, text = before ++ rest ∧ Cuts rest offset before tokens ∧
      ∀ c after, rest = c :: after →
        (∃ run, pieceAt c after = .unterminated run) ∨ ∃ d, pieceAt c after = .unknown d := by
  -- by induction on the length of the text, since the lexer goes on behind a whole piece
  induction hlength : text.length using Nat.strongRecOn generalizing text offset with
  | ind length ih =>
      subst hlength
      cases text with
      | nil => exact ⟨[], [], [], rfl, .nil, nofun⟩
      | cons c rest =>
          cases hpiece : pieceAt c rest with
          | skipped piece =>
              obtain ⟨run, after, rfl, rfl, hrun⟩ := skipped_of_pieceAt hpiece
              have hshorter : after.length < (c :: (run ++ after)).length := by
                rw [List.length_cons, List.length_append]
                omega
              obtain ⟨before, rest, tokens, rfl, hcuts, hstop⟩ :=
                ih _ hshorter after (offset + utf8Length (c :: run)) rfl
              refine ⟨c :: run ++ before, rest, tokens, ?_, ?_, hstop⟩
              · rw [List.append_assoc, List.cons_append]
              · rcases hrun with hblank | ⟨rfl, hrun, hend⟩
                · exact .blanks hblank hcuts
                · exact .comment hrun hend hcuts
          | symbol symbol =>
              have hspellable := spellable_of_pieceAt hpiece
              obtain ⟨after, hspelling, hapart⟩ := spelling_of_pieceAt hpiece
              have hshorter : after.length < (c :: rest).length := by
                have hlength := congrArg List.length hspelling
                have hpos := length_spelling_pos hspellable
                rw [List.length_append] at hlength
                omega
              obtain ⟨before, rest', tokens, rfl, hcuts, hstop⟩ :=
                ih _ hshorter after (offset + utf8Length symbol.spelling) rfl
              refine ⟨symbol.spelling ++ before, rest', ⟨symbol, offset⟩ :: tokens, ?_, ?_, hstop⟩
              · rw [hspelling, List.append_assoc]
              · exact .symbol hspellable hapart hcuts
          | unterminated run =>
              refine ⟨[], c :: rest, [], rfl, .nil, ?_⟩
              rintro _ _ ⟨⟩
              exact Or.inl ⟨run, hpiece⟩
          | unknown d =>
              refine ⟨[], c :: rest, [], rfl, .nil, ?_⟩
              rintro _ _ ⟨⟩
              exact Or.inr ⟨d, hpiece⟩

/-- **The converse of `Cuts.tokensFrom_eq`.** -/
theorem cuts_of_tokensFrom (h : tokensFrom text 0 offset = .ok tokens) : Cuts [] offset text tokens := by
  obtain ⟨before, rest, cut, rfl, hcuts, hstop⟩ := exists_cuts text offset
  have hread := hcuts.tokensFrom_append
  cases rest with
  | nil =>
      rw [List.append_nil] at h ⊢
      rw [hcuts.tokensFrom_eq] at h
      cases h
      exact hcuts
  | cons c after =>
      rw [hread] at h
      rcases hstop c after rfl with ⟨run, hpiece⟩ | ⟨d, hpiece⟩
      · rw [tokensFrom, hpiece] at h
        cases h
      · rw [tokensFrom, hpiece] at h
        cases h

theorem tokenize_of_cuts (h : Cuts [] 0 text tokens) : tokenize text = .ok tokens := by
  unfold tokenize
  rw [h.tokensFrom_eq]
  rfl

theorem cuts_of_tokenize (h : tokenize text = .ok tokens) : Cuts [] 0 text tokens :=
  cuts_of_tokensFrom (tokensFrom_of_tokenize h)

/-! ## Taking a text apart -/

theorem Cuts.eq_nil (h : Cuts tail offset [] tokens) : tokens = [] := by
  generalize htext : ([] : List Char) = text at h
  cases h with
  | nil => rfl
  | blank _ _ => cases htext
  | comment _ _ _ => cases htext
  | symbol hspellable _ _ =>
      have hpos := length_spelling_pos hspellable
      have hlength := congrArg List.length htext
      rw [List.length_append, List.length_nil] at hlength
      omega

/-- `Cuts` of `a`, with `b ++ tail` behind it, and of `b` make `Cuts` of `a ++ b`. -/
theorem Cuts.append {a b : List Char} {ts us : List Token} (ha : Cuts (b ++ tail) offset a ts)
    (hb : Cuts tail (offset + utf8Length a) b us) : Cuts tail offset (a ++ b) (ts ++ us) := by
  induction ha with
  | nil => exact hb
  | blank hblank _ ih =>
      rw [utf8Length, ← Nat.add_assoc] at hb
      exact .blank hblank (ih hb)
  | comment hrun hend _ ih =>
      rw [utf8Length_append, ← Nat.add_assoc] at hb
      rw [← List.append_assoc] at hend
      rw [List.append_assoc]
      exact .comment hrun hend (ih hb)
  | symbol hspellable hapart _ ih =>
      rw [utf8Length_append, ← Nat.add_assoc] at hb
      rw [← List.append_assoc] at hapart
      rw [List.append_assoc]
      exact .symbol hspellable hapart (ih hb)

/-- **The inverse of `Cuts.append` at a token**: `text = before ++ token.symbol.spelling ++ after`, and all three
    are `Cuts` with the rest of the text as their `tail`. -/
theorem Cuts.split {ts us : List Token} {token : Token} (h : Cuts tail offset text (ts ++ token :: us)) :
    ∃ before after, text = before ++ (token.symbol.spelling ++ after) ∧
      token.start = offset + utf8Length before ∧
      Cuts (token.symbol.spelling ++ after ++ tail) offset before ts ∧
      Cuts (after ++ tail) token.start token.symbol.spelling [token] ∧
      Cuts tail token.span.stop after us := by
  generalize htokens : ts ++ token :: us = tokens at h
  induction h generalizing ts with
  | nil => simp at htokens
  | @blank offset c _ _ hblank _ ih =>
      obtain ⟨before, after, rfl, hstart, hbefore, hsymbol, hafter⟩ := ih htokens
      refine ⟨c :: before, after, rfl, ?_, .blank hblank hbefore, hsymbol, hafter⟩
      rw [hstart, utf8Length, Nat.add_assoc]
  | @comment offset run _ _ hrun hend _ ih =>
      obtain ⟨before, after, rfl, hstart, hbefore, hsymbol, hafter⟩ := ih htokens
      refine ⟨'#' :: run ++ before, after, ?_, ?_, .comment hrun ?_ hbefore, hsymbol, hafter⟩
      · rw [List.append_assoc]
      · rw [hstart, utf8Length_append, Nat.add_assoc]
      · rwa [← List.append_assoc]
  | @symbol offset symbol text tokens hspellable hapart hmore ih =>
      cases ts with
      | nil =>
          cases htokens
          refine ⟨[], text, rfl, rfl, .nil, ?_, hmore⟩
          have hone : Cuts (text ++ tail) offset (symbol.spelling ++ []) [⟨symbol, offset⟩] :=
            .symbol hspellable hapart .nil
          rwa [List.append_nil] at hone
      | cons first ts =>
          obtain ⟨rfl, hrest⟩ := List.cons.inj htokens
          obtain ⟨before, after, rfl, hstart, hbefore, hsymbol, hafter⟩ := ih hrest
          refine ⟨symbol.spelling ++ before, after, ?_, ?_, .symbol hspellable ?_ hbefore, hsymbol,
            hafter⟩
          · rw [List.append_assoc]
          · rw [hstart, utf8Length_append, Nat.add_assoc]
          · rwa [← List.append_assoc]

/-- `Cuts.split` with the place given in bytes: `utf8Length before = token.span.start`. -/
theorem Cuts.split_start {before after : List Char} {ts us : List Token} {token : Token}
    (h : Cuts [] 0 (before ++ after) (ts ++ token :: us)) (hplace : token.span.start = utf8Length before) :
    (∃ rest, after = token.symbol.spelling ++ rest) ∧ Cuts after 0 before ts ∧
      Cuts [] (utf8Length before) after (token :: us) := by
  obtain ⟨before', rest, htext, hstart, hbefore, hsymbol, hafter⟩ := h.split
  rw [Nat.zero_add] at hstart
  obtain ⟨rfl, rfl⟩ := append_inj_of_utf8Length htext (hplace.symm.trans hstart)
  rw [List.append_nil] at hbefore
  refine ⟨⟨rest, rfl⟩, hbefore, ?_⟩
  rw [← hstart]
  exact hsymbol.append hafter

/-- `Cuts.split` with the place given in bytes: `utf8Length before = token.span.stop`. -/
theorem Cuts.split_stop {before after : List Char} {ts us : List Token} {token : Token}
    (h : Cuts [] 0 (before ++ after) (ts ++ token :: us)) (hplace : token.span.stop = utf8Length before) :
    Cuts after 0 before (ts ++ [token]) ∧ Cuts [] (utf8Length before) after us := by
  obtain ⟨before', rest, htext, hstart, hbefore, hsymbol, hafter⟩ := h.split
  rw [← List.append_assoc] at htext
  have hstop : token.span.stop = utf8Length (before' ++ token.symbol.spelling) := by
    rw [utf8Length_append, ← Nat.zero_add (utf8Length before'), ← hstart]
    rfl
  obtain ⟨rfl, rfl⟩ := append_inj_of_utf8Length htext (hplace.symm.trans hstop)
  rw [List.append_nil] at hbefore hsymbol
  refine ⟨hbefore.append (hstart ▸ hsymbol), ?_⟩
  rw [← hplace]
  exact hafter

/-! ## Putting something in between -/

theorem isNamePart_of_isBlank {c : Char} (h : isBlank c = true) : isNamePart c = false := by
  simp only [isBlank, Bool.or_eq_true, beq_iff_eq] at h
  rcases h with ((rfl | rfl) | rfl) | rfl
  all_goals decide

/-- `Cuts tail offset ins []` puts a blank or `'#'` in front of `tail`, so `Apart` carries over. -/
theorem Cuts.quiet_apart {ins : List Char} (h : Cuts tail offset ins []) {symbol : Symbol}
    (hapart : Apart symbol tail) : Apart symbol (ins ++ tail) := by
  cases h with
  | nil => exact hapart
  | blank hblank _ =>
      rintro _ _ _ ⟨⟩
      exact isNamePart_of_isBlank hblank
  | comment _ _ _ =>
      rintro _ _ _ ⟨⟩
      decide

theorem Cuts.quiet_newline {ins : List Char} (h : Cuts tail offset ins []) : '\n' ∉ ins := by
  generalize hnone : ([] : List Token) = none at h
  induction h with
  | nil => exact List.not_mem_nil
  | @blank _ c text _ hblank _ ih =>
      have hc : c ≠ '\n' := by
        rintro rfl
        exact absurd hblank (by decide)
      rw [List.mem_cons]
      rintro (rfl | hmem)
      · exact hc rfl
      · exact ih hnone hmem
  | comment hrun _ _ ih =>
      rw [List.mem_append, List.mem_cons]
      rintro ((heq | hmem) | hmem)
      · exact absurd heq (by decide)
      · exact hrun hmem
      · exact ih hnone hmem
  | symbol => cases hnone

/-- **`ins` with no symbols can follow any `a`.** If `a` ends in a comment, `ins` becomes part of that comment. -/
theorem Cuts.append_quiet {a ins : List Char} (ha : Cuts tail offset a tokens)
    (hins : ∀ offset, Cuts tail offset ins []) : Cuts tail offset (a ++ ins) tokens := by
  induction ha with
  | nil => exact hins _
  | blank hblank _ ih => exact .blank hblank ih
  | @comment offset run text tokens hrun hend hmore ih =>
      cases text with
      | nil =>
          obtain rfl := hmore.eq_nil
          have hlonger : '\n' ∉ run ++ ins := by
            rw [List.mem_append]
            rintro (hmem | hmem)
            · exact hrun hmem
            · exact (hins 0).quiet_newline hmem
          have hcuts : Cuts tail offset ('#' :: (run ++ ins) ++ []) [] := .comment hlonger hend .nil
          rwa [List.append_nil] at hcuts ⊢
      | cons c text =>
          rw [List.append_assoc]
          exact .comment hrun hend ih
  | @symbol offset symbol text tokens hspellable hapart _ ih =>
      rw [List.append_assoc]
      refine .symbol hspellable ?_ ih
      cases text with
      | nil => exact (hins 0).quiet_apart hapart
      | cons c text => exact hapart

/-- `tail` can be replaced by any text that starts with `'\n'`. -/
theorem Cuts.before_newline {a after : List Char} (h : Cuts tail offset a tokens) :
    Cuts ('\n' :: after) offset a tokens := by
  induction h with
  | nil => exact .nil
  | blank hblank _ ih => exact .blank hblank ih
  | @comment offset run text tokens hrun hend _ ih =>
      refine .comment hrun ?_ ih
      cases text with
      | nil => exact endsLine_newline after
      | cons c text => exact hend
  | @symbol offset symbol text tokens hspellable hapart _ ih =>
      refine .symbol hspellable ?_ ih
      cases text with
      | nil =>
          rintro _ _ _ ⟨⟩
          decide
      | cons c text => exact hapart

end PegTree.Grammar
