import PegTree.Proofs.LineColumns
import PegTree.Proofs.LongestMatch
import PegTree.Proofs.Reading

/-!
# `Proofs.BadEscapes` — the first escape that stands for nothing

The body of a literal is read in steps from left to right: a backslash goes with the character behind it, and every
other character stands alone. Which backslash starts a pair depends on all that was read before it, so what a pair
is has to be said in terms of whole steps (`Paired`, `PairAt`).

* **One body** (`badEscape?_eq_some_iff`). The place and the character that are found are those of the first pair
  that stands for nothing, and nothing is found in a body without such a pair.
* **No backslash is left alone** (`Body.paired`, `Paired.ne_dangling`): the lexer takes both characters of a pair
  or ends the literal before it. So it does not matter what a lone backslash would be read as.
* **The whole text** (`compile_invalidEscape`). The error names the first such pair of the first literal that has
  one, and its span holds the backslash and the character, however many bytes that takes.
-/

namespace PegTree.Grammar

open Text

/-! ## Pairs -/

/-- **`Paired body`**: `body` splits into characters other than `'\\'` and pairs of a `'\\'` with the character
    behind it. -/
inductive Paired : List Char → Prop where
  | nil : Paired []
  | plain {c : Char} {body : List Char} (hc : c ≠ '\\') : Paired body → Paired (c :: body)
  | pair {c : Char} {body : List Char} : Paired body → Paired ('\\' :: c :: body)

/-- **`PairAt body before c`**: a pair `'\\' c` of `body` stands behind `before`. `Paired before` makes its
    backslash the first of a pair and not the second. -/
def PairAt (body before : List Char) (c : Char) : Prop :=
  Paired before ∧ ∃ after, body = before ++ '\\' :: c :: after

/-- `c` is no character of `escapes`. -/
def Meaningless (c : Char) : Prop :=
  c ∉ ['"', '\\', 'n', 't', 'r']

instance (c : Char) : Decidable (Meaningless c) :=
  inferInstanceAs (Decidable (c ∉ ['"', '\\', 'n', 't', 'r']))

/-- **`FirstBad body before c`**: the pair behind `before` is `Meaningless`, and no such pair has a shorter
    `before'`. -/
structure FirstBad (body before : List Char) (c : Char) : Prop where
  pairAt : PairAt body before c
  meaningless : Meaningless c
  first : ∀ before' c', PairAt body before' c' → Meaningless c' → before.length ≤ before'.length

theorem meaningless_iff {c : Char} : Meaningless c ↔ escaped? c = none := by
  rw [Meaningless, escaped?]
  repeat' split
  all_goals simp_all

theorem not_meaningless_of_mem {c d : Char} (h : (c, d) ∈ escapes) : ¬ Meaningless c := by
  rw [meaningless_iff, escaped?_eq_some_iff.mpr h]
  exact Option.some_ne_none d

theorem Decodes.paired {body value : List Char} (h : Decodes body value) : Paired body := by
  induction h with
  | nil => exact .nil
  | plain hc _ ih => exact .plain hc ih
  | escape _ _ ih => exact .pair ih

/-- A `Meaningless` pair of `before ++ rest` stands at or behind `before`, if `before` decodes. -/
theorem Decodes.length_le {before value : List Char} (h : Decodes before value) {rest before' after' : List Char}
    {c' : Char} (hbefore' : Paired before') (heq : before ++ rest = before' ++ '\\' :: c' :: after')
    (hbad : Meaningless c') : before.length ≤ before'.length := by
  induction h generalizing before' with
  | nil => exact Nat.zero_le _
  | @plain c body value hc _ ih =>
      cases hbefore' with
      | nil => exact absurd (List.cons.inj heq).1 hc
      | plain _ hmore =>
          obtain ⟨_, hrest⟩ := List.cons.inj heq
          exact Nat.succ_le_succ (ih hmore hrest)
      | pair _ => exact absurd (List.cons.inj heq).1 hc
  | @escape c d body value hpair _ ih =>
      cases hbefore' with
      | nil =>
          cases heq
          exact absurd hbad (not_meaningless_of_mem hpair)
      | plain hc _ =>
          obtain ⟨hback, _⟩ := List.cons.inj heq
          exact absurd hback.symm hc
      | pair hmore =>
          obtain ⟨_, hrest⟩ := List.cons.inj (List.cons.inj heq).2
          exact Nat.succ_le_succ (Nat.succ_le_succ (ih hmore hrest))

/-- `Decodes body value` excludes every `Meaningless` pair. -/
theorem Decodes.not_meaningless {body value before : List Char} {c : Char} (h : Decodes body value)
    (hpair : PairAt body before c) : ¬ Meaningless c := by
  obtain ⟨hbefore, after, rfl⟩ := hpair
  intro hbad
  have hle := h.length_le hbefore (List.append_nil _) hbad
  rw [List.length_append, List.length_cons] at hle
  omega

theorem FirstBad.unique {body before before' : List Char} {c c' : Char} (h : FirstBad body before c)
    (h' : FirstBad body before' c') : before = before' ∧ c = c' := by
  have hlength : before.length = before'.length :=
    Nat.le_antisymm (h.first _ _ h'.pairAt h'.meaningless) (h'.first _ _ h.pairAt h.meaningless)
  obtain ⟨_, after, hbody⟩ := h.pairAt
  obtain ⟨_, after', hbody'⟩ := h'.pairAt
  obtain ⟨rfl, hrest⟩ := List.append_inj (hbody.symm.trans hbody') hlength
  cases hrest
  exact ⟨rfl, rfl⟩

/-! ## One body -/

/-- `badEscape?` returns a `Meaningless` pair behind a `before` that decodes. -/
theorem decodes_of_badEscape? {offset start : Nat} {body : List Char} {c : Char} (hbody : Paired body)
    (h : badEscape? offset body = some (start, c)) :
    ∃ before value after, Decodes before value ∧ body = before ++ '\\' :: c :: after ∧ Meaningless c ∧
      start = offset + utf8Length before := by
  induction hbody generalizing offset with
  | nil => cases h
  | @plain d body hd _ ih =>
      have hmore : badEscape? (offset + d.utf8Size) body = some (start, c) := by
        cases body with
        | nil =>
            rw [badEscape?, if_neg hd] at h
            cases h
        | cons e body => rwa [badEscape?, if_neg hd] at h
      obtain ⟨before, value, after, hbefore, rfl, hbad, rfl⟩ := ih hmore
      exact ⟨d :: before, d :: value, after, .plain hd hbefore, rfl, hbad, by rw [utf8Length, Nat.add_assoc]⟩
  | @pair d body _ ih =>
      rw [badEscape?, if_pos rfl] at h
      cases hd : escaped? d with
      | none =>
          rw [hd] at h
          cases h
          exact ⟨[], [], body, .nil, rfl, meaningless_iff.mpr hd, rfl⟩
      | some e =>
          rw [hd] at h
          obtain ⟨before, value, after, hbefore, rfl, hbad, rfl⟩ := ih h
          refine ⟨'\\' :: d :: before, e :: value, after, .escape (escaped?_eq_some_iff.mp hd) hbefore, rfl, hbad, ?_⟩
          simp only [utf8Length, Nat.add_assoc]

/-- **`badEscape?` returns `(start, c)` iff `FirstBad body before c`**, with `start` the byte behind `before`. -/
theorem badEscape?_eq_some_iff {offset start : Nat} {body : List Char} {c : Char} (hbody : Paired body) :
    badEscape? offset body = some (start, c) ↔
      ∃ before, FirstBad body before c ∧ start = offset + utf8Length before := by
  have hfound : ∀ {start c}, badEscape? offset body = some (start, c) →
      ∃ before, FirstBad body before c ∧ start = offset + utf8Length before := by
    intro start c h
    obtain ⟨before, value, after, hbefore, rfl, hbad, hstart⟩ := decodes_of_badEscape? hbody h
    refine ⟨before, ⟨⟨hbefore.paired, after, rfl⟩, hbad, ?_⟩, hstart⟩
    rintro before' c' ⟨hbefore', after', heq⟩ hbad'
    exact hbefore.length_le hbefore' heq hbad'
  refine ⟨hfound, ?_⟩
  rintro ⟨before, hfirst, rfl⟩
  cases hbad : badEscape? offset body with
  | none =>
      have hdecodes := (badEscape?_eq_none_iff offset body).mp hbad
      exact absurd hfirst.meaningless (hdecodes.not_meaningless hfirst.pairAt)
  | some found =>
      obtain ⟨before', hfirst', hstart'⟩ := hfound hbad
      obtain ⟨rfl, rfl⟩ := hfirst'.unique hfirst
      exact congrArg some (Prod.ext hstart' rfl)

theorem badEscape?_eq_none_iff_meaningful {body : List Char} (hbody : Paired body) (offset : Nat) :
    badEscape? offset body = none ↔ ∀ before c, PairAt body before c → ¬ Meaningless c := by
  constructor
  · intro h before c hpair
    exact ((badEscape?_eq_none_iff offset body).mp h).not_meaningless hpair
  · intro h
    cases hbad : badEscape? offset body with
    | none => rfl
    | some found =>
        obtain ⟨before, hfirst, _⟩ := (badEscape?_eq_some_iff hbody).mp hbad
        exact absurd hfirst.meaningless (h before _ hfirst.pairAt)

/-! ## No backslash is left alone -/

theorem Body.paired {body : List Char} (h : Body body) : Paired body := by
  induction h with
  | nil => exact .nil
  | plain _ hbackslash _ _ ih => exact .plain hbackslash ih
  | pair _ _ ih => exact .pair ih

/-- A `Paired` body never leaves its reader with a single backslash at the end. -/
theorem Paired.ne_dangling {body before : List Char} (h : Paired body) (hbefore : Paired before) :
    body ≠ before ++ ['\\'] := by
  intro heq
  induction hbefore generalizing body with
  | nil =>
      subst heq
      cases h with
      | plain hc _ => exact hc rfl
  | plain hc _ ih =>
      cases h with
      | nil => cases heq
      | plain _ hmore => exact ih hmore (List.cons.inj heq).2
      | pair _ => exact hc (List.cons.inj heq).1.symm
  | pair _ ih =>
      cases h with
      | nil => cases heq
      | plain hc _ => exact hc (List.cons.inj heq).1
      | pair hmore => exact ih hmore (List.cons.inj (List.cons.inj heq).2).2

/-- `badEscape?` and `unescape` in one pass, with `dangling offset` as the answer at a backslash that ends the
    body. -/
def decodeWith (dangling : Nat → Except (Nat × Char) (List Char)) :
    (offset : Nat) → List Char → Except (Nat × Char) (List Char)
  | _, [] => .ok []
  | offset, [c] => if c = '\\' then dangling offset else .ok [c]
  | offset, c :: d :: rest =>
    if c = '\\' then
      match escaped? d with
      | some e => (decodeWith dangling (offset + c.utf8Size + d.utf8Size) rest).map (e :: ·)
      | none => .error (offset, d)
    else (decodeWith dangling (offset + c.utf8Size) (d :: rest)).map (c :: ·)

/-- **`decodeWith` is `badEscape?` and then `unescape`**, for every `dangling`: `Paired` bodies never ask for it. -/
theorem Paired.decodeWith_eq {body : List Char} (h : Paired body)
    (dangling : Nat → Except (Nat × Char) (List Char)) (offset : Nat) :
    decodeWith dangling offset body
      = match badEscape? offset body with
        | some bad => .error bad
        | none => .ok (unescape body) := by
  induction h generalizing offset with
  | nil => rfl
  | @plain c body hc _ ih =>
      cases body with
      | nil => simp only [decodeWith, badEscape?, unescape, if_neg hc]
      | cons d body =>
          simp only [decodeWith, badEscape?, unescape, if_neg hc, ih]
          cases badEscape? (offset + c.utf8Size) (d :: body) <;> rfl
  | @pair c body _ ih =>
      cases hc : escaped? c with
      | none => simp only [decodeWith, badEscape?, if_true, hc, Option.isSome_none, Bool.false_eq_true, if_false]
      | some e =>
          simp only [decodeWith, badEscape?, unescape, if_true, hc, Option.isSome_some, Option.getD_some, ih]
          cases badEscape? (offset + '\\'.utf8Size + c.utf8Size) body <;> rfl

/-! ## The whole text -/

variable {source : String} {tokens : List Token}

/-- The literals that `tokenize` cuts are `Paired`. -/
theorem paired_of_tokenize {text : List Char} (htokens : tokenize text = .ok tokens) {token : Token}
    (hmem : token ∈ tokens) {body : List Char} (hbody : token.symbol = .literal body) : Paired body := by
  have hspellable := (cuts_of_tokenize htokens).spellable token hmem
  rw [hbody] at hspellable
  exact Body.paired hspellable

/-- Some literal of `tokens` has a `Meaningless` pair. -/
def HasBadPair (tokens : List Token) : Prop :=
  ∃ token ∈ tokens, ∃ body before c, token.symbol = .literal body ∧ PairAt body before c ∧ Meaningless c

/-- **`FirstBadEscape text tokens c span`**: `token` is the first literal with a bad pair, `FirstBad body before c`
    holds of it, and `span` covers the backslash and `c` in `text`. -/
structure FirstBadEscape (text : List Char) (tokens : List Token) (c : Char) (span : Span) : Prop where
  literal : ∃ ts token us body before, tokens = ts ++ token :: us ∧ ¬ HasBadPair ts ∧
    token.symbol = .literal body ∧ FirstBad body before c ∧
    span.start = token.span.start + utf8Length ('"' :: before)
  covers : span.Covers text ['\\', c]

theorem escapeFault?_append (ts us : List Token) :
    escapeFault? (ts ++ us) = (escapeFault? ts).or (escapeFault? us) := by
  induction ts with
  | nil => rfl
  | cons token ts ih =>
      rw [List.cons_append, escapeFault?, escapeFault?]
      split
      · split
        · rfl
        · exact ih
      · exact ih

/-- `escapeFault?` returns the `badEscape?` of one literal, and `none` on the tokens before it. -/
theorem exists_of_escapeFault? {fault : Fault} (h : escapeFault? tokens = some fault) :
    ∃ ts token us body start c, tokens = ts ++ token :: us ∧ escapeFault? ts = none ∧
      token.symbol = .literal body ∧ badEscape? (token.start + '"'.utf8Size) body = some (start, c) ∧
      fault = ⟨.invalidEscape c, ⟨start, start + '\\'.utf8Size + c.utf8Size⟩⟩ := by
  fun_induction escapeFault? tokens with
  | case1 => cases h
  | case2 token tokens body hbody start c hbad =>
      cases h
      exact ⟨[], token, tokens, body, start, c, rfl, rfl, hbody, hbad, rfl⟩
  | case3 token tokens body hbody hgood ih =>
      obtain ⟨ts, found, us, body', start, c, rfl, hts, hrest⟩ := ih h
      refine ⟨token :: ts, found, us, body', start, c, rfl, ?_, hrest⟩
      rw [escapeFault?]
      simp only [hbody, hgood, hts]
  | case4 token tokens hother ih =>
      obtain ⟨ts, found, us, body', start, c, rfl, hts, hrest⟩ := ih h
      refine ⟨token :: ts, found, us, body', start, c, rfl, ?_, hrest⟩
      rw [escapeFault?]
      split
      · next body hbody => exact absurd hbody (hother body)
      · exact hts

/-- `escapeFault? tokens = none ↔ ¬ HasBadPair tokens`, for `Paired` literals. -/
theorem escapeFault?_eq_none_iff_not_hasBadPair
    (hpaired : ∀ token ∈ tokens, ∀ body, token.symbol = .literal body → Paired body) :
    escapeFault? tokens = none ↔ ¬ HasBadPair tokens := by
  rw [escapeFault?_eq_none_iff]
  constructor
  · rintro hdecodable ⟨token, hmem, body, before, c, hbody, hpair, hbad⟩
    exact (hdecodable token hmem body hbody).not_meaningless hpair hbad
  · intro hnone token hmem body hbody
    rw [← badEscape?_eq_none_iff 0, badEscape?_eq_none_iff_meaningful (hpaired token hmem body hbody)]
    intro before c hpair hbad
    exact hnone ⟨token, hmem, body, before, c, hbody, hpair, hbad⟩

/-- **`escapeFault?` returns `.invalidEscape c` at `span` iff `FirstBadEscape text tokens c span`.** -/
theorem escapeFault?_eq_some_iff {text : List Char} (htokens : tokenize text = .ok tokens) {c : Char} {span : Span} :
    escapeFault? tokens = some ⟨.invalidEscape c, span⟩ ↔ FirstBadEscape text tokens c span := by
  have hpaired : ∀ token ∈ tokens, ∀ body, token.symbol = .literal body → Paired body :=
    fun _ hmem _ => paired_of_tokenize htokens hmem
  constructor
  · intro h
    obtain ⟨ts, token, us, body, start, c', rfl, hts, hbody, hbad, hfault⟩ := exists_of_escapeFault? h
    cases hfault
    have hmem : token ∈ ts ++ token :: us := List.mem_append_right _ List.mem_cons_self
    obtain ⟨before, hfirst, rfl⟩ := (badEscape?_eq_some_iff (hpaired token hmem body hbody)).mp hbad
    have hbefore : ¬ HasBadPair ts := (escapeFault?_eq_none_iff_not_hasBadPair fun token hmem =>
      hpaired token (List.mem_append_left _ hmem)).mp hts
    refine ⟨⟨ts, token, us, body, before, rfl, hbefore, hbody, hfirst, ?_⟩, ?_⟩
    · rw [utf8Length, ← Nat.add_assoc]
      rfl
    · obtain ⟨_, after, hpair⟩ := hfirst.pairAt
      obtain ⟨front, rest, htext, hstart, -⟩ := (cuts_of_tokenize htokens).split
      rw [hbody, hpair] at htext
      refine ⟨front ++ '"' :: before, after ++ '"' :: rest, ?_, ?_⟩
      · rw [htext]
        simp [Symbol.spelling]
      · rw [hstart]
        simp only [utf8Length_append, utf8Length, Nat.zero_add, Nat.add_zero, Nat.add_assoc]
  · rintro ⟨⟨ts, token, us, body, before, rfl, hts, hbody, hfirst, hstart⟩, front, rest, htext, rfl⟩
    have hmem : token ∈ ts ++ token :: us := List.mem_append_right _ List.mem_cons_self
    have hnone : escapeFault? ts = none := (escapeFault?_eq_none_iff_not_hasBadPair fun token hmem =>
      hpaired token (List.mem_append_left _ hmem)).mpr hts
    have hplace : utf8Length front = token.start + '"'.utf8Size + utf8Length before := by
      rw [Nat.add_assoc]
      exact hstart
    have hbad : badEscape? (token.start + '"'.utf8Size) body = some (utf8Length front, c) :=
      (badEscape?_eq_some_iff (hpaired token hmem body hbody)).mpr ⟨before, hfirst, hplace⟩
    rw [escapeFault?_append, hnone, Option.none_or, escapeFault?]
    simp only [hbody, hbad]
    rw [utf8Length_append, Nat.add_assoc]
    rfl

/-- `compile` reports `.invalidEscape c` at `span` iff `escapeFault?` does. -/
theorem compile_invalidEscape_iff (htokens : tokenize source.toList = .ok tokens) {c : Char} {span : Span} :
    (∃ error, compile source = .error error ∧ error.cause = .invalidEscape c ∧ error.span = span) ↔
      escapeFault? tokens = some ⟨.invalidEscape c, span⟩ := by
  constructor
  · rintro ⟨error, herror, hcause, rfl⟩
    cases hfault : escapeFault? tokens with
    | some fault =>
        have hcompile : compile source = .error (fault.locate source.toList) :=
          compile_of_fault htokens (by simp only [rulesOfTokens, hfault])
        rw [hcompile] at herror
        cases herror
        rw [← hcause]
        rfl
    | none =>
        -- with all escapes in order the error is of another family
        have hfaulty := faulty_of_compile herror
        rw [hcause] at hfaulty
        cases hfaulty with
        | badEscape htokens' hbad =>
            rw [htokens] at htokens'
            cases htokens'
            exact absurd ((escapeFault?_eq_none_iff tokens).mp hfault) hbad
  · intro hfault
    have hrules : rulesOfTokens (utf8Length source.toList) tokens = .error ⟨.invalidEscape c, span⟩ := by
      simp only [rulesOfTokens, hfault]
    exact ⟨_, compile_of_fault htokens hrules, rfl, rfl⟩

/-- **Bad escapes are reported exactly.** For a text that lexes, `compile` fails with `.invalidEscape` iff
    `HasBadPair tokens`, and with `c` at `span` iff `FirstBadEscape`. No literal ends in a lone backslash, so
    `decodeWith` does not depend on `dangling`; and without a fault it returns `unescape body`. -/
theorem compile_invalidEscape (htokens : tokenize source.toList = .ok tokens) :
    ((∃ error c, compile source = .error error ∧ error.cause = .invalidEscape c) ↔ HasBadPair tokens) ∧
    (∀ c span, (∃ error, compile source = .error error ∧ error.cause = .invalidEscape c ∧ error.span = span) ↔
      FirstBadEscape source.toList tokens c span) ∧
    ∀ token ∈ tokens, ∀ body, token.symbol = .literal body →
      (∀ before, Paired before → body ≠ before ++ ['\\']) ∧
      (∀ dangling dangling' offset, decodeWith dangling offset body = decodeWith dangling' offset body) ∧
      (escapeFault? tokens = none → ∀ dangling offset, decodeWith dangling offset body = .ok (unescape body)) := by
  have hpaired : ∀ token ∈ tokens, ∀ body, token.symbol = .literal body → Paired body :=
    fun _ hmem _ => paired_of_tokenize htokens hmem
  have hfound := escapeFault?_eq_none_iff_not_hasBadPair hpaired
  refine ⟨?_, fun c span => ?_, fun token hmem body hbody => ⟨fun before => ?_, ?_, ?_⟩⟩
  · constructor
    · rintro ⟨error, c, herror, hcause⟩
      have hfault := (compile_invalidEscape_iff htokens).mp ⟨error, herror, hcause, rfl⟩
      by_contra hnone
      rw [hfound.mpr hnone] at hfault
      cases hfault
    · intro hbad
      cases hfault : escapeFault? tokens with
      | none => exact absurd hbad (hfound.mp hfault)
      | some fault =>
          obtain ⟨_, _, _, _, start, c, _, _, _, _, rfl⟩ := exists_of_escapeFault? hfault
          obtain ⟨error, herror, hcause, _⟩ := (compile_invalidEscape_iff htokens).mpr hfault
          exact ⟨error, c, herror, hcause⟩
  · rw [compile_invalidEscape_iff htokens, escapeFault?_eq_some_iff htokens]
  · exact (hpaired token hmem body hbody).ne_dangling
  · intro dangling dangling' offset
    rw [(hpaired token hmem body hbody).decodeWith_eq, (hpaired token hmem body hbody).decodeWith_eq]
  · intro hfault dangling offset
    have hdecodes := (escapeFault?_eq_none_iff tokens).mp hfault token hmem body hbody
    rw [(hpaired token hmem body hbody).decodeWith_eq, (badEscape?_eq_none_iff offset body).mpr hdecodes]

/-- A literal that ends with an escaped backslash, and one with two bad escapes, the first of three bytes. -/
def wideEscape : String :=
  "a := \"\\\\\" \"ö\\→\\q\""

def wideEscapeTokens : List Token :=
  [⟨.name ['a'], 0⟩, ⟨.define, 2⟩, ⟨.literal ['\\', '\\'], 5⟩, ⟨.literal ['ö', '\\', '→', '\\', 'q'], 10⟩]

/-- The error is about the arrow: `⟨13, 17⟩` is the backslash and the three bytes of `'→'`. -/
theorem compile_invalidEscape_wideEscape :
    tokenize wideEscape.toList = .ok wideEscapeTokens ∧ HasBadPair wideEscapeTokens ∧
    FirstBadEscape wideEscape.toList wideEscapeTokens '→' ⟨13, 17⟩ := by
  have htokens : tokenize wideEscape.toList = .ok wideEscapeTokens := by decide
  obtain ⟨hiff, hfirst, _⟩ := compile_invalidEscape htokens
  have hrefused : ∃ error, compile wideEscape = .error error ∧ error.cause = .invalidEscape '→' ∧
      error.span = ⟨13, 17⟩ := ⟨_, rfl, rfl, rfl⟩
  have ⟨error, herror, hcause, _⟩ := hrefused
  exact ⟨htokens, hiff.mp ⟨error, _, herror, hcause⟩, (hfirst _ _).mp hrefused⟩

end PegTree.Grammar
