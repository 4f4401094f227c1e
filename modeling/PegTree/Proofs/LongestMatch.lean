import PegTree.Proofs.LineColumns
import PegTree.Proofs.Segments

/-!
# `Proofs.LongestMatch` — the lexer takes the longest piece at every place

A segmentation says what the lexer ought to find, in terms of the classes of pieces and of what stands between
them, and not in terms of how the text is walked over: a gap, then a piece that belongs to the class of its
symbol, such that no longer beginning of the text that is left belongs to any class, and so on to the end.

Only a name can go on behind its end. A closed literal cannot, because a body holds no quote of its own, and an
open one reaches as far as any body does. So the longest piece is the one that stands apart from what follows
it, and the cuts of `Proofs.Segments` are segmentations.

* **`pieceAt` is the longest piece** (`pieceAt_of_contains`, `longest_iff_apart`).
* **Cuts are segmentations**, with the tokens one behind the other (`segmented_iff_cuts`, `Cuts.placed`).
* **Where the lexer stops nothing can be cut** (`stuck_of_tokensFrom`, `Stuck.tokensFrom_eq`).
* **The lexer gives the segmentation of a text, or the place up to which there is one**
  (`tokenize_longest_match`).
-/

namespace PegTree.Grammar

open Text

/-! ## Classes of pieces -/

/-- The lexical classes: one for each kind of `Symbol`, and `openLiteral` for a literal without its second quote. -/
inductive PieceClass where
  | define
  | pipe
  | question
  | star
  | openGroup
  | closeGroup
  | newline
  | name
  | literal
  | openLiteral
  deriving DecidableEq, Repr

/-- `cls.Contains text`, with no regard to what follows `text`. -/
def PieceClass.Contains : PieceClass → List Char → Prop
  | .define, text => text = [':', '=']
  | .pipe, text => text = ['|']
  | .question, text => text = ['?']
  | .star, text => text = ['*']
  | .openGroup, text => text = ['(']
  | .closeGroup, text => text = [')']
  | .newline, text => text = ['\n']
  | .name, text => Identifier text
  | .literal, text => ∃ body, Body body ∧ text = '"' :: (body ++ ['"'])
  | .openLiteral, text => ∃ body, Body body ∧ text = '"' :: body

def Symbol.pieceClass : Symbol → PieceClass
  | .define => .define
  | .pipe => .pipe
  | .question => .question
  | .star => .star
  | .openGroup => .openGroup
  | .closeGroup => .closeGroup
  | .newline => .newline
  | .name _ => .name
  | .literal _ => .literal

/-- `other.length ≤ piece.length` for every prefix `other` of `text` that some class contains. -/
def Longest (piece text : List Char) : Prop :=
  ∀ (cls : PieceClass) (other : List Char), other <+: text → cls.Contains other →
    other.length ≤ piece.length

theorem spellable_iff_contains {symbol : Symbol} :
    symbol.Spellable ↔ symbol.pieceClass.Contains symbol.spelling := by
  cases symbol with
  | name text => exact Iff.rfl
  | literal body =>
      constructor
      · intro hbody
        exact ⟨body, hbody, rfl⟩
      · rintro ⟨body', hbody, hspelling⟩
        obtain ⟨-, hquoted⟩ := List.cons.inj hspelling
        obtain rfl := List.append_cancel_right hquoted
        exact hbody
  | define | pipe | question | star | openGroup | closeGroup | newline =>
      exact ⟨fun _ => rfl, fun _ => trivial⟩

/-! ## The longest piece -/

/-- Every `Body` that is a prefix of `rest` is a prefix of `(literalBody rest).1`. -/
theorem Body.isPrefix_literalBody {body rest : List Char} (h : Body body) (hpart : body <+: rest) :
    body <+: (literalBody rest).1 := by
  induction h generalizing rest with
  | nil => exact List.nil_prefix
  | @plain c body hquote hbackslash hnewline _ ih =>
      obtain ⟨after, rfl⟩ := hpart
      have hlonger := ih (List.prefix_append body after)
      have hread : (literalBody (c :: (body ++ after))).1 = c :: (literalBody (body ++ after)).1 := by
        simp [literalBody, hquote, hbackslash, hnewline]
      rw [List.cons_append, hread]
      exact (List.prefix_cons_inj c).mpr hlonger
  | @pair c body hnewline _ ih =>
      obtain ⟨after, rfl⟩ := hpart
      have hlonger := ih (List.prefix_append body after)
      have hread : (literalBody ('\\' :: c :: (body ++ after))).1
          = '\\' :: c :: (literalBody (body ++ after)).1 := by
        simp [literalBody, hnewline]
      rw [List.cons_append, List.cons_append, hread]
      exact (List.prefix_cons_inj _).mpr ((List.prefix_cons_inj c).mpr hlonger)

/-- For symbols other than `.name`, `symbol.spelling <+: c :: rest` alone gives
    `pieceAt c rest = .symbol symbol`. -/
theorem pieceAt_of_isPrefix {symbol : Symbol} {c : Char} {rest : List Char} (h : symbol.Spellable)
    (hname : ∀ text, symbol ≠ .name text) (hpart : symbol.spelling <+: c :: rest) :
    pieceAt c rest = .symbol symbol := by
  obtain ⟨after, hafter⟩ := hpart
  have hapart : Apart symbol after := fun text htext => absurd htext (hname text)
  obtain ⟨d, ds, hspelling, hpiece⟩ := pieceAt_spelling h hapart
  rw [hspelling] at hafter
  cases hafter
  exact hpiece

theorem pieceAt_quote (rest : List Char) :
    pieceAt '"' rest = if (literalBody rest).2 then .symbol (.literal (literalBody rest).1)
      else .unterminated ('"' :: (literalBody rest).1) := by
  rw [pieceAt, if_neg (by decide), if_neg (by decide), if_neg (by decide), if_pos rfl]
  rcases literalBody rest with ⟨body, closed⟩
  cases closed <;> rfl

/-- **`pieceAt` is maximal.** If `cls.Contains other` for a prefix `other`, then `pieceAt` returns a symbol or an
    `.unterminated` run, and what it returns is no shorter than `other`. -/
theorem pieceAt_of_contains {cls : PieceClass} {other : List Char} {c : Char} {rest : List Char}
    (h : cls.Contains other) (hpart : other <+: c :: rest) :
    (∃ symbol, pieceAt c rest = .symbol symbol ∧ other.length ≤ symbol.spelling.length) ∨
      ∃ run, pieceAt c rest = .unterminated run ∧ other.length ≤ run.length := by
  -- what is spelled in one way only is cut as it stands
  have hexact : ∀ symbol : Symbol, symbol.Spellable → (∀ text, symbol ≠ .name text) →
      other = symbol.spelling → ∃ symbol, pieceAt c rest = .symbol symbol ∧
        other.length ≤ symbol.spelling.length := by
    rintro symbol hspellable hname rfl
    exact ⟨symbol, pieceAt_of_isPrefix hspellable hname hpart, le_rfl⟩
  cases cls with
  | define => exact Or.inl (hexact .define trivial nofun h)
  | pipe => exact Or.inl (hexact .pipe trivial nofun h)
  | question => exact Or.inl (hexact .question trivial nofun h)
  | star => exact Or.inl (hexact .star trivial nofun h)
  | openGroup => exact Or.inl (hexact .openGroup trivial nofun h)
  | closeGroup => exact Or.inl (hexact .closeGroup trivial nofun h)
  | newline => exact Or.inl (hexact .newline trivial nofun h)
  | literal =>
      obtain ⟨body, hbody, hother⟩ := h
      exact Or.inl (hexact (.literal body) hbody nofun hother)
  | name =>
      cases other with
      | nil => exact absurd h id
      | cons d ds =>
          obtain ⟨hstart, hparts⟩ := h
          obtain ⟨rfl, after, rfl⟩ := List.cons_prefix_cons.mp hpart
          refine Or.inl ⟨.name (d :: (ds ++ after).takeWhile isNamePart), ?_, ?_⟩
          · rw [pieceAt, if_neg (by rw [isBlank_of_isNameStart hstart]; decide), if_pos hstart]
          · rw [Symbol.spelling, List.takeWhile_append_of_pos (List.all_eq_true.mp hparts),
              List.length_cons, List.length_cons, List.length_append]
            omega
  | openLiteral =>
      obtain ⟨body, hbody, rfl⟩ := h
      obtain ⟨rfl, hbegins⟩ := List.cons_prefix_cons.mp hpart
      have hlength := (hbody.isPrefix_literalBody hbegins).length_le
      rw [pieceAt_quote]
      split
      · refine Or.inl ⟨_, rfl, ?_⟩
        rw [Symbol.spelling, List.length_cons, List.length_cons, List.length_append]
        omega
      · refine Or.inr ⟨_, rfl, ?_⟩
        rw [List.length_cons, List.length_cons]
        omega

theorem Identifier.append {text : List Char} {c : Char} (h : Identifier text) (hc : isNamePart c = true) :
    Identifier (text ++ [c]) := by
  cases text with
  | nil => exact absurd h id
  | cons d text =>
      obtain ⟨hstart, hparts⟩ := h
      refine ⟨hstart, ?_⟩
      show (text ++ [c]).all isNamePart = true
      rw [List.all_append, hparts, List.all_cons, hc]
      rfl

/-- **`Longest symbol.spelling` at `symbol.spelling ++ after` iff `Apart symbol after`.** -/
theorem longest_iff_apart {symbol : Symbol} {after : List Char} (h : symbol.Spellable) :
    Longest symbol.spelling (symbol.spelling ++ after) ↔ Apart symbol after := by
  constructor
  · rintro hlongest text rfl c hc
    by_contra hpart
    rw [Bool.not_eq_false] at hpart
    obtain ⟨more, rfl⟩ := List.head?_eq_some_iff.mp hc
    -- the name and the character behind it would be a longer name
    have hlonger : text ++ [c] <+: text ++ c :: more := ⟨more, by rw [List.append_assoc]; rfl⟩
    have hle := hlongest .name (text ++ [c]) hlonger (Identifier.append h hpart)
    rw [List.length_append, Symbol.spelling, List.length_singleton] at hle
    omega
  · intro hapart cls other hpart hcontains
    obtain ⟨c, cs, hspelling, hpiece⟩ := pieceAt_spelling h hapart
    rw [hspelling, List.cons_append] at hpart
    rcases pieceAt_of_contains hcontains hpart with ⟨symbol', hsymbol, hle⟩ | ⟨run, hrun, -⟩
    · rw [hpiece] at hsymbol
      cases hsymbol
      exact hle
    · rw [hpiece] at hrun
      cases hrun

/-! ## Segmentations -/

/-- `Gap after gap`: `gap`, followed by `after`, is blanks and comments, and every comment reaches `EndsLine`. -/
inductive Gap (after : List Char) : List Char → Prop where
  | nil : Gap after []
  | blank {c gap} (hblank : c = ' ' ∨ c = '\t' ∨ c = '\r' ∨ c = '\x0c') : Gap after gap → Gap after (c :: gap)
  | comment {run gap} (hrun : '\n' ∉ run) (hend : EndsLine (gap ++ after)) :
      Gap after gap → Gap after ('#' :: run ++ gap)

/-- **`Segmented tail offset text tokens`**: `text` alternates `Gap`s with the spellings of `tokens`. Each spelling
    is of its `pieceClass` and is `Longest` in all that is left, `tail` included, and `Token.start` counts the bytes
    before it. -/
inductive Segmented (tail : List Char) : (offset : Nat) → (text : List Char) → List Token → Prop where
  | last {offset gap} (hgap : Gap tail gap) : Segmented tail offset gap []
  | token {offset gap symbol text tokens} (hgap : Gap (symbol.spelling ++ text ++ tail) gap)
      (hclass : symbol.pieceClass.Contains symbol.spelling)
      (hlongest : Longest symbol.spelling (symbol.spelling ++ (text ++ tail))) :
      Segmented tail (offset + utf8Length gap + utf8Length symbol.spelling) text tokens →
      Segmented tail offset (gap ++ (symbol.spelling ++ text)) (⟨symbol, offset + utf8Length gap⟩ :: tokens)

variable {tail text : List Char} {offset : Nat} {tokens : List Token}

theorem isBlank_iff {c : Char} : isBlank c = true ↔ c = ' ' ∨ c = '\t' ∨ c = '\r' ∨ c = '\x0c' := by
  simp only [isBlank, Bool.or_eq_true, beq_iff_eq, or_assoc]

theorem Gap.append {a b : List Char} (ha : Gap (b ++ tail) a) (hb : Gap tail b) : Gap tail (a ++ b) := by
  induction ha with
  | nil => exact hb
  | blank hblank _ ih => exact .blank hblank ih
  | comment hrun hend _ ih =>
      rw [List.append_assoc]
      rw [← List.append_assoc] at hend
      exact .comment hrun hend ih

/-- `Cuts` of `text` extend over a `Gap` in front of it. -/
theorem Gap.cuts {gap : List Char} (hgap : Gap (text ++ tail) gap)
    (h : Cuts tail (offset + utf8Length gap) text tokens) : Cuts tail offset (gap ++ text) tokens := by
  induction hgap generalizing offset with
  | nil => exact h
  | blank hblank _ ih =>
      rw [utf8Length, ← Nat.add_assoc] at h
      exact .blank (isBlank_iff.mpr hblank) (ih h)
  | comment hrun hend _ ih =>
      rw [utf8Length_append, ← Nat.add_assoc] at h
      rw [← List.append_assoc] at hend
      rw [List.append_assoc]
      exact .comment hrun hend (ih h)

/-- `Segmented` likewise: the `Gap` joins the first gap of `text`. -/
theorem Segmented.after_gap {gap : List Char} (hgap : Gap (text ++ tail) gap)
    (h : Segmented tail (offset + utf8Length gap) text tokens) :
    Segmented tail offset (gap ++ text) tokens := by
  cases h with
  | last hlast => exact .last (hgap.append hlast)
  | @token _ first symbol text tokens hfirst hclass hlongest hrest =>
      have hboth : Gap (symbol.spelling ++ text ++ tail) (gap ++ first) := by
        rw [List.append_assoc] at hgap
        exact hgap.append hfirst
      rw [← List.append_assoc, Nat.add_assoc, ← utf8Length_append]
      refine .token hboth hclass hlongest ?_
      rw [utf8Length_append, ← Nat.add_assoc]
      exact hrest

/-- **`Segmented` is `Cuts`**, by `longest_iff_apart` at every token. -/
theorem segmented_iff_cuts : Segmented tail offset text tokens ↔ Cuts tail offset text tokens := by
  constructor
  · intro h
    induction h with
    | @last offset gap hgap =>
        have hcuts : Cuts tail offset (gap ++ []) [] := @Gap.cuts tail [] offset [] gap hgap .nil
        rwa [List.append_nil] at hcuts
    | token hgap hclass hlongest _ ih =>
        have hspellable := spellable_iff_contains.mpr hclass
        exact hgap.cuts (.symbol hspellable ((longest_iff_apart hspellable).mp hlongest) ih)
  · intro h
    induction h with
    | nil => exact .last .nil
    | @blank offset c text tokens hblank _ ih =>
        have hgap : Gap (text ++ tail) [c] := .blank (isBlank_iff.mp hblank) .nil
        exact ih.after_gap hgap
    | @comment offset run text tokens hrun hend _ ih =>
        have hgap : Gap (text ++ tail) ('#' :: run ++ []) := .comment hrun hend .nil
        rw [List.append_nil] at hgap
        exact ih.after_gap hgap
    | symbol hspellable hapart _ ih =>
        exact .token .nil (spellable_iff_contains.mp hspellable)
          ((longest_iff_apart hspellable).mpr hapart) ih

/-! ## Places of the tokens -/

/-- `Placed text tokens`: spans ascend without overlap, are not empty, and each is that of an occurrence of
    `token.symbol.spelling` in `text`. -/
structure Placed (text : List Char) (tokens : List Token) : Prop where
  ordered : tokens.Pairwise fun a b => a.span.stop ≤ b.span.start
  nonempty : ∀ token ∈ tokens, token.span.start < token.span.stop
  slice : ∀ token ∈ tokens, ∃ before after, text = before ++ (token.symbol.spelling ++ after) ∧
    token.span = ⟨utf8Length before, utf8Length (before ++ token.symbol.spelling)⟩

theorem Cuts.start_ge (h : Cuts tail offset text tokens) : ∀ token ∈ tokens, offset ≤ token.span.start := by
  induction h with
  | nil => nofun
  | blank _ _ ih => exact fun token hmem => (Nat.le_add_right _ _).trans (ih token hmem)
  | comment _ _ _ ih => exact fun token hmem => (Nat.le_add_right _ _).trans (ih token hmem)
  | symbol _ _ _ ih =>
      refine List.forall_mem_cons.mpr ⟨le_rfl, ?_⟩
      exact fun token hmem => (Nat.le_add_right _ _).trans (ih token hmem)

theorem Cuts.ordered (h : Cuts tail offset text tokens) :
    tokens.Pairwise fun a b => a.span.stop ≤ b.span.start := by
  induction h with
  | nil => exact .nil
  | blank _ _ ih => exact ih
  | comment _ _ _ ih => exact ih
  | symbol _ _ hmore ih => exact .cons hmore.start_ge ih

theorem Cuts.spellable (h : Cuts tail offset text tokens) : ∀ token ∈ tokens, token.symbol.Spellable := by
  induction h with
  | nil => nofun
  | blank _ _ ih => exact ih
  | comment _ _ _ ih => exact ih
  | symbol hspellable _ _ ih => exact List.forall_mem_cons.mpr ⟨hspellable, ih⟩

theorem utf8Length_pos {cs : List Char} (h : 0 < cs.length) : 0 < utf8Length cs := by
  cases cs with
  | nil => exact absurd h (Nat.lt_irrefl 0)
  | cons c cs => exact Nat.lt_of_lt_of_le c.utf8Size_pos (Nat.le_add_right _ _)

theorem Cuts.placed (h : Cuts tail 0 text tokens) : Placed text tokens where
  ordered := h.ordered
  nonempty := by
    intro token hmem
    have hpos := utf8Length_pos (length_spelling_pos (h.spellable token hmem))
    show token.start < token.start + utf8Length token.symbol.spelling
    omega
  slice := by
    intro token hmem
    obtain ⟨ts, us, rfl⟩ := List.append_of_mem hmem
    obtain ⟨before, after, rfl, hstart, -⟩ := h.split
    rw [Nat.zero_add] at hstart
    refine ⟨before, after, rfl, ?_⟩
    rw [utf8Length_append, ← hstart]
    rfl

/-! ## Where the lexer stops -/

/-- **`Stuck rest start fault`**: no token can be cut from `rest`, which starts at byte `start`. In `unknown` no
    class contains a prefix of `rest` and the only `Gap` is empty; in `unterminated` the `Longest` prefix is an
    `openLiteral` and no prefix is a `literal`. -/
inductive Stuck (rest : List Char) (start : Nat) : Fault → Prop where
  | unknown {c : Char} {after : List Char} (hrest : rest = c :: after)
      (hpiece : ∀ (cls : PieceClass) (piece : List Char), piece <+: rest → ¬ cls.Contains piece)
      (hgap : ∀ gap behind, rest = gap ++ behind → Gap behind gap → gap = []) :
      Stuck rest start ⟨.unknownSymbol c, ⟨start, start + c.utf8Size⟩⟩
  | unterminated {run : List Char} (hrun : run <+: rest) (hopen : PieceClass.openLiteral.Contains run)
      (hlongest : Longest run rest)
      (hclosed : ∀ piece, piece <+: rest → ¬ PieceClass.literal.Contains piece) :
      Stuck rest start ⟨.unterminatedLiteral, ⟨start, start + utf8Length run⟩⟩

theorem Stuck.span_start {rest : List Char} {start : Nat} {fault : Fault} (h : Stuck rest start fault) :
    fault.span.start = start := by
  cases h with
  | unknown => rfl
  | unterminated => rfl

theorem literalBody_isPrefix (rest : List Char) : (literalBody rest).1 <+: rest := by
  fun_induction literalBody rest with
  | case1 | case2 | case3 | case5 | case6 => exact List.nil_prefix
  | case4 c rest _ body closed hbody ih =>
      rw [hbody] at ih
      exact (List.prefix_cons_inj _).mpr ((List.prefix_cons_inj c).mpr ih)
  | case7 c rest _ _ _ _ body closed hbody ih =>
      rw [hbody] at ih
      exact (List.prefix_cons_inj c).mpr ih

theorem contains_of_pieceAt {c : Char} {rest : List Char} {symbol : Symbol}
    (h : pieceAt c rest = .symbol symbol) :
    symbol.spelling <+: c :: rest ∧ symbol.pieceClass.Contains symbol.spelling := by
  obtain ⟨after, hspelling, -⟩ := spelling_of_pieceAt h
  exact ⟨⟨after, hspelling.symm⟩, spellable_iff_contains.mp (spellable_of_pieceAt h)⟩

theorem openLiteral_of_pieceAt {c : Char} {rest run : List Char} (h : pieceAt c rest = .unterminated run) :
    run <+: c :: rest ∧ PieceClass.openLiteral.Contains run := by
  revert h
  fun_cases pieceAt c rest with
  | case5 _ _ _ hquote body hbody =>
      rintro ⟨⟩
      have hpart := literalBody_isPrefix rest
      rw [hbody] at hpart
      exact ⟨(List.prefix_cons_inj c).mpr hpart, body, body_of_literalBody hbody, by rw [hquote]⟩
  | _ => rintro ⟨⟩

theorem unknown_of_pieceAt {c d : Char} {rest : List Char} (h : pieceAt c rest = .unknown d) :
    d = c ∧ isBlank c = false ∧ c ≠ '#' := by
  revert h
  fun_cases pieceAt c rest with
  | case13 hblank _ hcomment =>
      rintro ⟨⟩
      exact ⟨rfl, Bool.not_eq_true _ ▸ hblank, hcomment⟩
  | _ => rintro ⟨⟩

theorem gap_of_pieceAt {c : Char} {rest piece : List Char} (h : pieceAt c rest = .skipped piece) :
    ∃ run behind, rest = run ++ behind ∧ Gap behind (c :: run) := by
  obtain ⟨run, behind, -, rfl, hrun⟩ := skipped_of_pieceAt h
  rcases hrun with hblank | ⟨rfl, hrun, hend⟩
  · exact ⟨[], run ++ behind, rfl, .blank (isBlank_iff.mp (hblank c List.mem_cons_self)) .nil⟩
  · have hgap : Gap behind ('#' :: run ++ []) := .comment hrun hend .nil
    rw [List.append_nil] at hgap
    exact ⟨run, behind, rfl, hgap⟩

theorem stuck_of_unterminated {c : Char} {after run : List Char} (h : pieceAt c after = .unterminated run)
    (start : Nat) : Stuck (c :: after) start ⟨.unterminatedLiteral, ⟨start, start + utf8Length run⟩⟩ := by
  obtain ⟨hrun, hopen⟩ := openLiteral_of_pieceAt h
  refine .unterminated hrun hopen ?_ ?_
  · intro cls other hpart hcontains
    rcases pieceAt_of_contains hcontains hpart with ⟨symbol, hsymbol, -⟩ | ⟨run', hrun', hle⟩
    · rw [h] at hsymbol
      cases hsymbol
    · rw [h] at hrun'
      cases hrun'
      exact hle
  · rintro _ hpart ⟨body, hbody, rfl⟩
    have hsymbol := @pieceAt_of_isPrefix (.literal body) c after hbody nofun hpart
    rw [h] at hsymbol
    cases hsymbol

theorem stuck_of_unknown {c d : Char} {after : List Char} (h : pieceAt c after = .unknown d) (start : Nat) :
    Stuck (c :: after) start ⟨.unknownSymbol d, ⟨start, start + d.utf8Size⟩⟩ := by
  obtain ⟨rfl, hblank, hcomment⟩ := unknown_of_pieceAt h
  refine .unknown rfl ?_ ?_
  · intro cls piece hpart hcontains
    rcases pieceAt_of_contains hcontains hpart with ⟨symbol, hsymbol, -⟩ | ⟨run, hrun, -⟩
    · rw [h] at hsymbol
      cases hsymbol
    · rw [h] at hrun
      cases hrun
  · intro gap behind hrest hgap
    cases hgap with
    | nil => rfl
    | blank hc _ =>
        obtain ⟨rfl, -⟩ := List.cons.inj hrest
        rw [isBlank_iff.mpr hc] at hblank
        cases hblank
    | comment _ _ _ =>
        obtain ⟨rfl, -⟩ := List.cons.inj hrest
        exact absurd rfl hcomment

/-- **`Stuck rest start fault` implies `tokensFrom rest 0 start = .error fault`.** -/
theorem Stuck.tokensFrom_eq {rest : List Char} {start : Nat} {fault : Fault} (h : Stuck rest start fault) :
    tokensFrom rest 0 start = .error fault := by
  cases h with
  | @unknown c after hrest hpiece hgap =>
      subst hrest
      -- every other piece would start with something of a class, or with a gap
      cases hfirst : pieceAt c after with
      | skipped piece =>
          obtain ⟨run, behind, rfl, hskip⟩ := gap_of_pieceAt hfirst
          cases hgap (c :: run) behind rfl hskip
      | symbol symbol =>
          obtain ⟨hpart, hcontains⟩ := contains_of_pieceAt hfirst
          exact absurd hcontains (hpiece _ _ hpart)
      | unterminated run =>
          obtain ⟨hpart, hcontains⟩ := openLiteral_of_pieceAt hfirst
          exact absurd hcontains (hpiece _ _ hpart)
      | unknown d =>
          obtain ⟨rfl, -⟩ := unknown_of_pieceAt hfirst
          rw [tokensFrom, hfirst]
  | @unterminated run hrun hopen hlongest hclosed =>
      obtain ⟨body, hbody, rfl⟩ := hopen
      obtain ⟨after, rfl⟩ := hrun
      have hpart := hbody.isPrefix_literalBody (List.prefix_append body after)
      have hfirst := pieceAt_quote (body ++ after)
      split at hfirst
      · obtain ⟨hbegins, hcontains⟩ := contains_of_pieceAt hfirst
        exact absurd hcontains (hclosed _ hbegins)
      · obtain ⟨hbegins, hcontains⟩ := openLiteral_of_pieceAt hfirst
        have hle := hlongest .openLiteral _ hbegins hcontains
        rw [List.length_cons, List.length_cons] at hle
        have hsame := hpart.eq_of_length_le (Nat.le_of_succ_le_succ hle)
        rw [← hsame] at hfirst
        rw [List.cons_append, tokensFrom, hfirst]

/-! ## The whole text -/

/-- If `tokensFrom` refuses, then at a `rest` that is `Stuck`, behind a `before` that has `Cuts`. -/
theorem stuck_of_tokensFrom {fault : Fault} (h : tokensFrom text 0 offset = .error fault) :
    ∃ before rest tokens, text = before ++ rest ∧ Cuts rest offset before tokens ∧
      Stuck rest (offset + utf8Length before) fault := by
  obtain ⟨before, rest, tokens, rfl, hcuts, hstop⟩ := exists_cuts text offset
  refine ⟨before, rest, tokens, rfl, hcuts, ?_⟩
  cases rest with
  | nil =>
      rw [List.append_nil, hcuts.tokensFrom_eq] at h
      cases h
  | cons c after =>
      rw [hcuts.tokensFrom_append] at h
      rcases hstop c after rfl with ⟨run, hpiece⟩ | ⟨d, hpiece⟩
      · rw [tokensFrom, hpiece] at h
        cases h
        exact stuck_of_unterminated hpiece _
      · rw [tokensFrom, hpiece] at h
        cases h
        exact stuck_of_unknown hpiece _

/-- **Lexing is longest match, without loss.** `tokenize source = .ok tokens` iff `tokens` is `Segmented` and
    `Placed` over all of `source`. `tokenize source = .error error` iff `source = before ++ rest` with `before` so
    segmented and `rest` `Stuck`; then `error` has the cause and the span of that fault, which starts at
    `utf8Length before`, and the position `Position.after before`. -/
theorem tokenize_longest_match (source : List Char) :
    (∀ tokens, tokenize source = .ok tokens ↔ Segmented [] 0 source tokens ∧ Placed source tokens) ∧
    (∀ error, tokenize source = .error error ↔
      ∃ before rest tokens fault, source = before ++ rest ∧ Segmented rest 0 before tokens ∧
        Placed before tokens ∧ Stuck rest (utf8Length before) fault ∧ error.cause = fault.cause ∧
        error.span = fault.span ∧ error.position = Position.after before ∧ error = fault.locate source) := by
  constructor
  · intro tokens
    constructor
    · intro h
      have hcuts := cuts_of_tokenize h
      exact ⟨segmented_iff_cuts.mpr hcuts, hcuts.placed⟩
    · rintro ⟨hsegmented, -⟩
      exact tokenize_of_cuts (segmented_iff_cuts.mp hsegmented)
  · intro error
    constructor
    · intro h
      cases hread : tokensFrom source 0 0 with
      | ok tokens =>
          rw [tokenize, hread] at h
          cases h
      | error fault =>
          rw [tokenize, hread] at h
          cases h
          obtain ⟨before, rest, tokens, hsource, hcuts, hstuck⟩ := stuck_of_tokensFrom hread
          rw [Nat.zero_add] at hstuck
          have hposition : (fault.locate source).position = Position.after before := by
            rw [Fault.locate, hstuck.span_start, hsource]
            exact LineIndex.position_append before rest
          exact ⟨before, rest, tokens, fault, hsource, segmented_iff_cuts.mpr hcuts, hcuts.placed, hstuck, rfl, rfl,
            hposition, rfl⟩
    · rintro ⟨before, rest, tokens, fault, rfl, hsegmented, -, hstuck, -, -, -, rfl⟩
      have hread := (segmented_iff_cuts.mp hsegmented).tokensFrom_append
      rw [Nat.zero_add, hstuck.tokensFrom_eq] at hread
      rw [tokenize, hread]
      rfl

end PegTree.Grammar
