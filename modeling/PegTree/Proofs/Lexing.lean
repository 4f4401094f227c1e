import PegTree.Grammar.Lexer
import PegTree.Grammar.Printer
import Mathlib.Data.List.TakeWhile

/-!
# `Proofs.Lexing` — symbols and the text they are cut from

The lexer takes the longest piece at every place. This module says what a symbol can look like
(`Symbol.Spellable`), that only such symbols are cut from a text (`tokensFrom_spellable`), and that each of
them is cut back out of a text in which it stands apart from what follows it (`pieceAt_spelling`). The
layout of symbols keeps them apart, so it can be read back (`tokensFrom_layout`).
-/

namespace PegTree.Grammar

open Text

/-! ## What symbols look like -/

/-- `[A-Za-z_][A-Za-z0-9_-]*`, with the classes of `isNameStart` and `isNamePart`. -/
def Identifier : List Char → Prop
  | [] => False
  | c :: cs => isNameStart c = true ∧ cs.all isNamePart = true

instance : DecidablePred Identifier
  | [] => .isFalse id
  | c :: cs => inferInstanceAs (Decidable (isNameStart c = true ∧ cs.all isNamePart = true))

/-- What can stand between the quotes of a literal: no `'\n'`, and `'"'` or `'\\'` only behind a `'\\'`. -/
inductive Body : List Char → Prop where
  | nil : Body []
  | plain {c : Char} {body : List Char} (hquote : c ≠ '"') (hbackslash : c ≠ '\\') (hnewline : c ≠ '\n') :
      Body body → Body (c :: body)
  | pair {c : Char} {body : List Char} (hnewline : c ≠ '\n') : Body body → Body ('\\' :: c :: body)

/-- `symbol.spelling` can be lexed: names are `Identifier`s and literals have a `Body`. -/
def Symbol.Spellable : Symbol → Prop
  | .name text => Identifier text
  | .literal body => Body body
  | _ => True

/-- `literalBody rest` returns a `Body`, closed or not. -/
theorem body_of_literalBody {rest body : List Char} {closed : Bool} (h : literalBody rest = (body, closed)) :
    Body body := by
  fun_induction literalBody rest generalizing body closed with
  | case1 | case2 | case3 | case5 | case6 =>
      cases h
      exact .nil
  | case4 c rest hnewline body' closed hbody ih =>
      cases h
      exact .pair hnewline (ih hbody)
  | case7 c rest hend hpair hquote hnewline body' closed hbody ih =>
      cases h
      have hbackslash : c ≠ '\\' := by
        rintro rfl
        cases rest with
        | nil => exact hend rfl rfl
        | cons d rest => exact hpair d rest rfl rfl
      exact .plain hquote hbackslash hnewline (ih hbody)

/-- `literalBody` stops at the first quote that no backslash escapes. -/
theorem Body.literalBody_eq {body : List Char} (h : Body body) (tail : List Char) :
    literalBody (body ++ '"' :: tail) = (body, true) := by
  induction h with
  | nil => simp [literalBody]
  | plain hquote hbackslash hnewline _ ih => simp [literalBody, hquote, hbackslash, hnewline, ih]
  | pair hnewline _ ih => simp [literalBody, hnewline, ih]

/-! ## One piece -/

theorem spellable_of_pieceAt {c : Char} {rest : List Char} {symbol : Symbol}
    (h : pieceAt c rest = .symbol symbol) : symbol.Spellable := by
  revert h
  fun_cases pieceAt c rest with
  | case2 _ hstart =>
      rintro ⟨⟩
      exact ⟨hstart, List.all_eq_true.mpr fun d hd => List.mem_takeWhile_imp hd⟩
  | case4 _ _ _ _ body hbody =>
      rintro ⟨⟩
      exact body_of_literalBody hbody
  | case1 | case3 | case5 | case13 => nofun
  | _ =>
      rintro ⟨⟩
      trivial

/-- `tail` does not continue `symbol`: behind a `.name` no `isNamePart` follows. Other symbols have no longer
    form. -/
def Apart (symbol : Symbol) (tail : List Char) : Prop :=
  ∀ text, symbol = .name text → ∀ c, tail.head? = some c → isNamePart c = false

theorem apart_nil (symbol : Symbol) : Apart symbol [] := by
  intro _ _ _ hc
  cases hc

theorem isBlank_of_isNameStart {c : Char} (h : isNameStart c = true) : isBlank c = false := by
  by_contra hblank
  rw [Bool.not_eq_false] at hblank
  simp only [isBlank, Bool.or_eq_true, beq_iff_eq] at hblank
  rcases hblank with ((rfl | rfl) | rfl) | rfl
  all_goals exact absurd h (by decide)

theorem takeWhile_eq_nil {p : Char → Bool} {cs : List Char}
    (h : ∀ c, cs.head? = some c → p c = false) : cs.takeWhile p = [] := by
  cases cs with
  | nil => rfl
  | cons c cs => rw [List.takeWhile_cons, h c rfl, if_neg Bool.false_ne_true]

/-- `pieceAt` on `symbol.spelling ++ tail` returns `symbol`, if it is `Spellable` and `Apart` from `tail`. -/
theorem pieceAt_spelling {symbol : Symbol} {tail : List Char} (h : symbol.Spellable)
    (hapart : Apart symbol tail) :
    ∃ c cs, symbol.spelling = c :: cs ∧ pieceAt c (cs ++ tail) = .symbol symbol := by
  cases symbol with
  | name text =>
      cases text with
      | nil => exact absurd h id
      | cons c cs =>
          obtain ⟨hstart, hparts⟩ := h
          refine ⟨c, cs, rfl, ?_⟩
          rw [pieceAt, if_neg (by rw [isBlank_of_isNameStart hstart]; decide), if_pos hstart,
            List.takeWhile_append_of_pos (List.all_eq_true.mp hparts), takeWhile_eq_nil (hapart _ rfl),
            List.append_nil]
  | literal body =>
      refine ⟨'"', body ++ ['"'], rfl, ?_⟩
      have hbody : literalBody (body ++ ['"'] ++ tail) = (body, true) := by
        rw [List.append_assoc]
        exact Body.literalBody_eq h tail
      rw [pieceAt, if_neg (by decide), if_neg (by decide), if_neg (by decide), if_pos rfl, hbody]
  | define => exact ⟨_, _, rfl, rfl⟩
  | pipe => exact ⟨_, _, rfl, rfl⟩
  | question => exact ⟨_, _, rfl, rfl⟩
  | star => exact ⟨_, _, rfl, rfl⟩
  | openGroup => exact ⟨_, _, rfl, rfl⟩
  | closeGroup => exact ⟨_, _, rfl, rfl⟩
  | newline => exact ⟨_, _, rfl, rfl⟩

/-! ## The whole text -/

theorem tokensFrom_spellable {source : List Char} {seen offset : Nat} {tokens : List Token}
    (h : tokensFrom source seen offset = .ok tokens) : ∀ token ∈ tokens, token.symbol.Spellable := by
  fun_induction tokensFrom source seen offset generalizing tokens with
  | case1 =>
      cases h
      exact fun _ hmem => absurd hmem List.not_mem_nil
  | case2 _ _ _ _ ih => exact ih h
  | case3 _ _ _ _ _ ih => exact ih h
  | case4 c rest offset symbol hpiece more hmore ih =>
      cases h
      exact List.forall_mem_cons.mpr ⟨spellable_of_pieceAt hpiece, ih hmore⟩
  | case5 => cases h
  | case6 => cases h
  | case7 => cases h

theorem tokensFrom_of_tokenize {source : List Char} {tokens : List Token}
    (h : tokenize source = .ok tokens) : tokensFrom source 0 0 = .ok tokens := by
  unfold tokenize at h
  cases htokens : tokensFrom source 0 0 with
  | error fault =>
      rw [htokens] at h
      cases h
  | ok cut =>
      rw [htokens] at h
      cases h
      rfl

/-- `tokensFrom` with `cs.length` characters seen drops `cs`. -/
theorem tokensFrom_seen (cs tail : List Char) (offset : Nat) :
    tokensFrom (cs ++ tail) cs.length offset = tokensFrom tail 0 (offset + utf8Length cs) := by
  induction cs generalizing offset with
  | nil => rfl
  | cons c cs ih =>
      rw [List.cons_append, List.length_cons, tokensFrom, ih, utf8Length, Nat.add_assoc]

/-- `tokensFrom` on `symbol.spelling ++ tail` is `⟨symbol, offset⟩`, followed by `tokensFrom` on `tail`. -/
theorem tokensFrom_spelling {symbol : Symbol} {tail : List Char} (h : symbol.Spellable)
    (hapart : Apart symbol tail) (offset : Nat) :
    tokensFrom (symbol.spelling ++ tail) 0 offset
      = (tokensFrom tail 0 (offset + utf8Length symbol.spelling)).map (⟨symbol, offset⟩ :: ·) := by
  obtain ⟨c, cs, hspelling, hpiece⟩ := pieceAt_spelling h hapart
  rw [hspelling, List.cons_append, tokensFrom, hpiece, utf8Length, ← Nat.add_assoc]
  simp only [hspelling, List.length_cons, Nat.add_sub_cancel, tokensFrom_seen]
  cases tokensFrom tail 0 (offset + c.utf8Size + utf8Length cs) <;> rfl

theorem tokensFrom_symbol {symbol : Symbol} {tail : List Char} (h : symbol.Spellable)
    (hapart : Apart symbol tail) {offset : Nat} {tokens : List Token}
    (htail : tokensFrom tail 0 (offset + utf8Length symbol.spelling) = .ok tokens) :
    tokensFrom (symbol.spelling ++ tail) 0 offset = .ok (⟨symbol, offset⟩ :: tokens) := by
  rw [tokensFrom_spelling h hapart, htail]
  rfl

/-! ## Layout -/

theorem layout_cons (symbol : Symbol) (symbols : List Symbol) :
    ∃ tail, layout (symbol :: symbols) = symbol.spelling ++ tail := by
  cases symbols with
  | nil => exact ⟨[], (List.append_nil _).symm⟩
  | cons next symbols =>
      rw [layout]
      split
      · exact ⟨_, rfl⟩
      · exact ⟨_, rfl⟩

theorem isBlank_spelling {symbol : Symbol} (h : symbol.Spellable) {tail : List Char} :
    ∀ c, (symbol.spelling ++ tail).head? = some c → isBlank c = false := by
  obtain ⟨c, cs, hspelling, hpiece⟩ := pieceAt_spelling h (apart_nil symbol)
  rw [hspelling]
  rintro _ ⟨⟩
  by_contra hblank
  rw [Bool.not_eq_false] at hblank
  rw [pieceAt, if_pos hblank] at hpiece
  cases hpiece

/-- `spaced a b = false` only where `b.spelling` cannot continue `a`. -/
theorem apart_of_not_spaced {a b : Symbol} (h : spaced a b = false) (tail : List Char) :
    Apart a (b.spelling ++ tail) := by
  rintro text rfl c hc
  cases b with
  | question | star | closeGroup | newline =>
      cases hc
      decide
  | define | pipe | openGroup | name _ | literal _ => cases h

/-- **`layout` is a section of `tokensFrom`**: the tokens of `layout symbols` have the symbols `symbols`. -/
theorem tokensFrom_layout {symbols : List Symbol} (h : ∀ symbol ∈ symbols, symbol.Spellable)
    (offset : Nat) :
    ∃ tokens, tokensFrom (layout symbols) 0 offset = .ok tokens ∧ tokens.map (·.symbol) = symbols := by
  fun_induction layout symbols generalizing offset with
  | case1 => exact ⟨[], rfl, rfl⟩
  | case2 a =>
      have hend : tokensFrom [] 0 (offset + utf8Length a.spelling) = .ok [] := by rw [tokensFrom]
      have hread := tokensFrom_symbol (h a List.mem_cons_self) (apart_nil a) hend
      rw [List.append_nil] at hread
      exact ⟨_, hread, rfl⟩
  | case3 a b rest hspaced ih =>
      obtain ⟨ha, hrest⟩ := List.forall_mem_cons.mp h
      obtain ⟨tokens, hread, hsymbols⟩ := ih hrest (offset + utf8Length a.spelling + ' '.utf8Size)
      obtain ⟨tail, htail⟩ := layout_cons b rest
      -- the blank is a run of its own, because no symbol starts with a blank
      have hblank : tokensFrom (' ' :: layout (b :: rest)) 0 (offset + utf8Length a.spelling) =
          .ok tokens := by
        have hrun : (layout (b :: rest)).takeWhile isBlank = [] := by
          rw [htail]
          exact takeWhile_eq_nil (isBlank_spelling (hrest b List.mem_cons_self))
        rw [tokensFrom, pieceAt, if_pos (by decide), hrun]
        exact hread
      have hapart : Apart a (' ' :: layout (b :: rest)) := by
        rintro _ _ _ ⟨⟩
        decide
      exact ⟨_, tokensFrom_symbol ha hapart hblank, by rw [List.map_cons, hsymbols]⟩
  | case4 a b rest hspaced ih =>
      obtain ⟨ha, hrest⟩ := List.forall_mem_cons.mp h
      obtain ⟨tokens, hread, hsymbols⟩ := ih hrest (offset + utf8Length a.spelling)
      obtain ⟨tail, htail⟩ := layout_cons b rest
      have hapart : Apart a (layout (b :: rest)) := by
        rw [htail]
        exact apart_of_not_spaced (Bool.not_eq_true _ ▸ hspaced) tail
      exact ⟨_, tokensFrom_symbol ha hapart hread, by rw [List.map_cons, hsymbols]⟩

end PegTree.Grammar
