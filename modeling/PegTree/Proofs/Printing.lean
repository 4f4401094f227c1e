import PegTree.Grammar.Printer
import PegTree.Proofs.Lexing
import PegTree.Proofs.Reading

/-!
# `Proofs.Printing` — a printed grammar is read back

The printer groups an operand that binds less tightly than its place asks. Seen from the grammar language
this means that every pattern has a derivation at each of three places: as a term, as a sequence and as
alternatives (`Pattern.Parsable`). What the derivation stands for is the pattern itself, up to one-element
lists, which have no spelling of their own (`Pattern.unwrapped`).

Together with `Proofs.Lexing` (the text is cut into the printed symbols) and `Proofs.Reading` (a derivation is
read as it says) this gives the round trip of tables (`compile_text`). Compiled patterns have no one-element
lists to begin with (`Alternatives.settled`), so printing and reading them changes nothing.
-/

namespace PegTree

open Grammar

/-! ## Sub-patterns -/

namespace Pattern

/-- `P q` for every `q ∈ p.parts`, `p` itself included. -/
def Everywhere (P : Pattern → Prop) (p : Pattern) : Prop :=
  ∀ q ∈ p.parts, P q

instance (P : Pattern → Prop) [DecidablePred P] : DecidablePred (Everywhere P) :=
  fun p => inferInstanceAs (Decidable (∀ q ∈ p.parts, P q))

variable {P Q : Pattern → Prop}

theorem Everywhere.mono {p : Pattern} (h : p.Everywhere P) (hPQ : ∀ q, P q → Q q) : p.Everywhere Q :=
  fun q hq => hPQ q (h q hq)

theorem forall_mem_partsList {ps : List Pattern} :
    (∀ q ∈ partsList ps, P q) ↔ ∀ p ∈ ps, p.Everywhere P := by
  simp only [mem_partsList, Everywhere]
  exact ⟨fun h p hp q hq => h q ⟨p, hp, hq⟩, fun h q ⟨p, hp, hq⟩ => h p hp q hq⟩

theorem everywhere_seq {ps : List Pattern} :
    (seq ps).Everywhere P ↔ P (.seq ps) ∧ ∀ p ∈ ps, p.Everywhere P := by
  rw [Everywhere, parts, List.forall_mem_cons, forall_mem_partsList]

theorem everywhere_choice {ps : List Pattern} :
    (choice ps).Everywhere P ↔ P (.choice ps) ∧ ∀ p ∈ ps, p.Everywhere P := by
  rw [Everywhere, parts, List.forall_mem_cons, forall_mem_partsList]

theorem everywhere_opt {p : Pattern} : (opt p).Everywhere P ↔ P (.opt p) ∧ p.Everywhere P := by
  rw [Everywhere, parts, List.forall_mem_cons]
  rfl

theorem everywhere_rep {p : Pattern} : (rep p).Everywhere P ↔ P (.rep p) ∧ p.Everywhere P := by
  rw [Everywhere, parts, List.forall_mem_cons]
  rfl

theorem everywhere_ref {name : String} : (ref name).Everywhere P ↔ P (.ref name) := by
  rw [Everywhere, parts, List.forall_mem_singleton]

theorem everywhere_literal {value : String} : (literal value).Everywhere P ↔ P (.literal value) := by
  rw [Everywhere, parts, List.forall_mem_singleton]

/-! ## One-element lists -/

mutual
/-- `p` with every one-element `seq` or `choice` replaced by its element, at every depth. -/
def unwrapped : Pattern → Pattern
  | .literal value => .literal value
  | .ref name => .ref name
  | .seq ps => .sequence (unwrappedList ps)
  | .choice ps => .oneOf (unwrappedList ps)
  | .opt p => .opt p.unwrapped
  | .rep p => .rep p.unwrapped
def unwrappedList : List Pattern → List Pattern
  | [] => []
  | p :: ps => p.unwrapped :: unwrappedList ps
end

theorem unwrappedList_eq_map (ps : List Pattern) : unwrappedList ps = ps.map unwrapped := by
  induction ps with
  | nil => rfl
  | cons p ps ih => rw [unwrappedList, ih, List.map_cons]

/-- What grammar text can say at the top of a pattern: a `.ref` has an `Identifier`, a list is not empty. -/
def Writable : Pattern → Prop
  | .ref name => Identifier name.toList
  | .seq ps => ps ≠ []
  | .choice ps => ps ≠ []
  | _ => True

instance : DecidablePred Writable
  | .ref name => inferInstanceAs (Decidable (Identifier name.toList))
  | .seq ps => inferInstanceAs (Decidable (ps ≠ []))
  | .choice ps => inferInstanceAs (Decidable (ps ≠ []))
  | .literal _ => .isTrue trivial
  | .opt _ => .isTrue trivial
  | .rep _ => .isTrue trivial

/-- A `seq` or `choice` has two elements or more. -/
def Compact : Pattern → Prop
  | .seq ps => 2 ≤ ps.length
  | .choice ps => 2 ≤ ps.length
  | _ => True

theorem sequence_of_two_le {ps : List Pattern} (h : 2 ≤ ps.length) : sequence ps = .seq ps := by
  match ps, h with
  | _ :: _ :: _, _ => rfl

theorem oneOf_of_two_le {ps : List Pattern} (h : 2 ≤ ps.length) : oneOf ps = .choice ps := by
  match ps, h with
  | _ :: _ :: _, _ => rfl

theorem unwrappedList_eq_self {ps : List Pattern} (h : ∀ p ∈ ps, p.unwrapped = p) :
    unwrappedList ps = ps := by
  rw [unwrappedList_eq_map, List.map_congr_left h, List.map_id']

theorem unwrapped_eq_self (p : Pattern) (h : p.Everywhere Compact) : p.unwrapped = p := by
  induction p using Pattern.inductionOn with
  | literal value => rfl
  | ref name => rfl
  | seq ps ih =>
      obtain ⟨htwo, hparts⟩ := everywhere_seq.mp h
      rw [unwrapped, unwrappedList_eq_self fun p hp => ih p hp (hparts p hp), sequence_of_two_le htwo]
  | choice ps ih =>
      obtain ⟨htwo, hparts⟩ := everywhere_choice.mp h
      rw [unwrapped, unwrappedList_eq_self fun p hp => ih p hp (hparts p hp), oneOf_of_two_le htwo]
  | opt p ih => rw [unwrapped, ih (everywhere_opt.mp h).2]
  | rep p ih => rw [unwrapped, ih (everywhere_rep.mp h).2]

end Pattern

/-! ## Escapes -/

namespace Grammar

/-- `escapedChar c` is a backslash and a `d` with `(d, c) ∈ escapes`, or `[c]` with `c` none of `'"'`, `'\\'`,
    `'\n'`. -/
theorem escapedChar_cases (c : Char) :
    (∃ d, (d, c) ∈ escapes ∧ escapedChar c = ['\\', d]) ∨
      (c ≠ '"' ∧ c ≠ '\\' ∧ c ≠ '\n' ∧ escapedChar c = [c]) := by
  by_cases hc : c ∈ ['"', '\\', '\n', '\t', '\r']
  · simp only [List.mem_cons, List.not_mem_nil, or_false] at hc
    rcases hc with rfl | rfl | rfl | rfl | rfl
    · exact .inl ⟨'"', by decide, rfl⟩
    · exact .inl ⟨'\\', by decide, rfl⟩
    · exact .inl ⟨'n', by decide, rfl⟩
    · exact .inl ⟨'t', by decide, rfl⟩
    · exact .inl ⟨'r', by decide, rfl⟩
  · simp only [List.mem_cons, List.not_mem_nil, or_false, not_or] at hc
    obtain ⟨hquote, hbackslash, hnewline, htab, hreturn⟩ := hc
    refine .inr ⟨hquote, hbackslash, hnewline, ?_⟩
    rw [escapedChar, if_neg hquote, if_neg hbackslash, if_neg hnewline, if_neg htab, if_neg hreturn]

/-- `escape` is a section of `Decodes`. -/
theorem decodes_escape (value : List Char) : Decodes (escape value) value := by
  induction value with
  | nil => exact .nil
  | cons c value ih =>
      rw [escape, List.flatMap_cons]
      rcases escapedChar_cases c with ⟨d, hpair, hc⟩ | ⟨_, hbackslash, _, hc⟩
      · rw [hc]
        exact .escape hpair ih
      · rw [hc]
        exact .plain hbackslash ih

theorem body_escape (value : List Char) : Body (escape value) := by
  have hnewline : ∀ pair ∈ escapes, pair.1 ≠ '\n' := by decide
  induction value with
  | nil => exact .nil
  | cons c value ih =>
      rw [escape, List.flatMap_cons]
      rcases escapedChar_cases c with ⟨d, hpair, hc⟩ | ⟨hquote, hbackslash, hline, hc⟩
      · rw [hc]
        exact .pair (hnewline _ hpair) ih
      · rw [hc]
        exact .plain hquote hbackslash hline ih

theorem unescape_escape (value : List Char) : unescape (escape value) = value :=
  (decodes_escape value).unescape_eq

/-! ## Printed symbols -/

/-- The symbols that the printer makes: names are `Identifier`s, and the body of a literal is `escape` of its
    value. -/
def Symbol.Printed : Symbol → Prop
  | .name text => Identifier text
  | .literal body => ∃ value, body = escape value
  | _ => True

theorem Symbol.Printed.spellable {symbol : Symbol} (h : symbol.Printed) : symbol.Spellable := by
  cases symbol with
  | literal body =>
      obtain ⟨value, rfl⟩ := h
      exact body_escape value
  | name text => exact h
  | define | pipe | question | star | openGroup | closeGroup | newline => trivial

theorem printed_operand {place level : Nat} {symbols : List Symbol}
    (h : ∀ symbol ∈ symbols, symbol.Printed) : ∀ symbol ∈ operand place level symbols, symbol.Printed := by
  unfold operand
  split
  · intro symbol hmem
    rw [List.mem_cons, List.mem_append, List.mem_singleton] at hmem
    rcases hmem with rfl | hmem | rfl
    · trivial
    · exact h symbol hmem
    · trivial
  · exact h

theorem printed_suffix {place level : Nat} {symbols : List Symbol} {s : Symbol}
    (h : ∀ symbol ∈ symbols, symbol.Printed) (hs : s.Printed) :
    ∀ symbol ∈ operand place level symbols ++ [s], symbol.Printed := by
  rw [List.forall_mem_append, List.forall_mem_singleton]
  exact ⟨printed_operand h, hs⟩

end Grammar

theorem Pattern.printed_sequenceSymbols {ps : List Pattern}
    (h : ∀ p ∈ ps, ∀ symbol ∈ p.symbols, symbol.Printed) :
    ∀ symbol ∈ sequenceSymbols ps, symbol.Printed := by
  induction ps with
  | nil => exact fun _ hmem => absurd hmem List.not_mem_nil
  | cons p ps ih =>
      obtain ⟨hp, hps⟩ := List.forall_mem_cons.mp h
      rw [sequenceSymbols]
      exact List.forall_mem_append.mpr ⟨printed_operand hp, ih hps⟩

theorem Pattern.printed_otherSymbols {ps : List Pattern}
    (h : ∀ p ∈ ps, ∀ symbol ∈ p.symbols, symbol.Printed) :
    ∀ symbol ∈ otherSymbols ps, symbol.Printed := by
  induction ps with
  | nil => exact fun _ hmem => absurd hmem List.not_mem_nil
  | cons p ps ih =>
      obtain ⟨hp, hps⟩ := List.forall_mem_cons.mp h
      rw [otherSymbols]
      exact List.forall_mem_cons.mpr ⟨trivial, List.forall_mem_append.mpr ⟨printed_operand hp, ih hps⟩⟩

/-- `p.symbols` are `Printed`, if `p` is `Writable` everywhere. -/
theorem Pattern.printed_symbols (p : Pattern) (h : p.Everywhere Writable) :
    ∀ symbol ∈ p.symbols, symbol.Printed := by
  induction p using Pattern.inductionOn with
  | literal value =>
      rw [symbols, List.forall_mem_singleton]
      exact ⟨value.toList, rfl⟩
  | ref name =>
      rw [symbols, List.forall_mem_singleton]
      exact everywhere_ref.mp h
  | seq ps ih =>
      obtain ⟨hne, hparts⟩ := everywhere_seq.mp h
      cases ps with
      | nil => exact absurd rfl hne
      | cons p ps => exact printed_sequenceSymbols fun q hq => ih q hq (hparts q hq)
  | choice ps ih =>
      -- the first alternative has no pipe before it, so it is spelled apart from the others
      obtain ⟨hne, hparts⟩ := everywhere_choice.mp h
      have hprinted := fun q hq => ih q hq (hparts q hq)
      cases ps with
      | nil => exact absurd rfl hne
      | cons p ps =>
          obtain ⟨hp, hps⟩ := List.forall_mem_cons.mp hprinted
          rw [symbols]
          exact List.forall_mem_append.mpr ⟨printed_operand hp, printed_otherSymbols hps⟩
  | opt p ih => exact printed_suffix (ih (everywhere_opt.mp h).2) trivial
  | rep p ih => exact printed_suffix (ih (everywhere_rep.mp h).2) trivial

/-! ## Derivations of printed patterns -/

/-- **`p.Parsable`**: for each binding level, `operand` of `p` at that level is the yield of a tree of the right
    kind, and the tree stands for `p.unwrapped`. -/
structure Pattern.Parsable (p : Pattern) : Prop where
  term : ∃ t : Term, t.symbols = operand 2 p.level p.symbols ∧ t.pattern = p.unwrapped
  sequence : ∃ s : Sequence, s.symbols = operand 1 p.level p.symbols ∧
    .sequence s.patterns = p.unwrapped
  alternatives : ∃ a : Alternatives, a.symbols = p.symbols ∧ .oneOf a.patterns = p.unwrapped

namespace Pattern.Parsable

variable {p : Pattern}

/-- `2 ≤ p.level`: `operand` adds no group at any of the three places. -/
theorem of_term {t : Term} (hlevel : 2 ≤ p.level) (hsymbols : t.symbols = p.symbols)
    (hpattern : t.pattern = p.unwrapped) : p.Parsable where
  term := ⟨t, by rw [operand, if_neg (by omega), hsymbols], hpattern⟩
  sequence := ⟨.last t, by rw [operand, if_neg (by omega), Sequence.symbols, hsymbols], hpattern⟩
  alternatives := ⟨.last (.last t), hsymbols, hpattern⟩

/-- `p.level < 2`: as a term, `p` is a group around `a`. -/
theorem group_term (a : Alternatives) (hlevel : p.level < 2) (hsymbols : a.symbols = p.symbols)
    (hpattern : .oneOf a.patterns = p.unwrapped) :
    ∃ t : Term, t.symbols = operand 2 p.level p.symbols ∧ t.pattern = p.unwrapped := by
  refine ⟨.mk (.group a) [], ?_, hpattern⟩
  rw [operand, if_pos hlevel, Term.symbols, Primary.symbols, hsymbols, List.map_nil, List.append_nil]

/-- `p.level = 1`: a group is added for the term alone. -/
theorem of_sequence {s : Sequence} (hlevel : p.level = 1) (hsymbols : s.symbols = p.symbols)
    (hpattern : .sequence s.patterns = p.unwrapped) : p.Parsable where
  term := group_term (.last s) (by omega) hsymbols hpattern
  sequence := ⟨s, by rw [operand, if_neg (by omega), hsymbols], hpattern⟩
  alternatives := ⟨.last s, hsymbols, hpattern⟩

/-- `p.level = 0`: a group is added for the term and for the sequence. -/
theorem of_alternatives {a : Alternatives} (hlevel : p.level = 0) (hsymbols : a.symbols = p.symbols)
    (hpattern : .oneOf a.patterns = p.unwrapped) : p.Parsable where
  term := group_term a (by omega) hsymbols hpattern
  sequence := by
    -- a single group, spelled the same way where a term is asked for
    obtain ⟨t, ht, htpattern⟩ := group_term a (by omega) hsymbols hpattern
    refine ⟨.last t, ?_, htpattern⟩
    rw [Sequence.symbols, ht, operand, operand, if_pos (by omega), if_pos (by omega)]
  alternatives := ⟨a, hsymbols, hpattern⟩

/-- `.opt` and `.rep` of a `Parsable` operand, with `s` the suffix. -/
theorem of_suffix {q : Pattern} (s : Suffix) (h : q.Parsable) (hlevel : 2 ≤ p.level)
    (hsymbols : p.symbols = operand 2 q.level q.symbols ++ [s.symbol])
    (hpattern : p.unwrapped = s.apply q.unwrapped) : p.Parsable := by
  -- the term may have suffixes of its own, and the new one goes behind them
  obtain ⟨⟨primary, suffixes⟩, ht, htpattern⟩ := h.term
  rw [Term.symbols] at ht
  rw [Term.pattern] at htpattern
  refine of_term (t := .mk primary (suffixes ++ [s])) hlevel ?_ ?_
  · rw [hsymbols, ← ht, Term.symbols, List.map_append, List.append_assoc]
    rfl
  · rw [hpattern, ← htpattern, Term.pattern, List.foldl_append]
    rfl

/-- `sequenceSymbols` of `Parsable` patterns is the yield of a `Sequence`. -/
theorem exists_sequence (p : Pattern) (ps : List Pattern) (h : ∀ q ∈ p :: ps, q.Parsable) :
    ∃ s : Sequence, s.symbols = sequenceSymbols (p :: ps) ∧ s.patterns = (p :: ps).map unwrapped := by
  induction ps generalizing p with
  | nil =>
      obtain ⟨t, ht, hpattern⟩ := (h p List.mem_cons_self).term
      refine ⟨.last t, ?_, ?_⟩
      · rw [Sequence.symbols, ht, sequenceSymbols, sequenceSymbols, List.append_nil]
      · rw [Sequence.patterns, hpattern, List.map_singleton]
  | cons q ps ih =>
      obtain ⟨hp, hps⟩ := List.forall_mem_cons.mp h
      obtain ⟨t, ht, hpattern⟩ := hp.term
      obtain ⟨s, hs, hpatterns⟩ := ih q hps
      refine ⟨.cons t s, ?_, ?_⟩
      · rw [Sequence.symbols, ht, hs]
        rfl
      · rw [Sequence.patterns, hpattern, hpatterns]
        rfl

/-- The same for `otherSymbols` and `Alternatives`. -/
theorem exists_alternatives (p : Pattern) (ps : List Pattern) (h : ∀ q ∈ p :: ps, q.Parsable) :
    ∃ a : Alternatives, a.symbols = operand 1 p.level p.symbols ++ otherSymbols ps ∧
      a.patterns = (p :: ps).map unwrapped := by
  induction ps generalizing p with
  | nil =>
      obtain ⟨s, hs, hpattern⟩ := (h p List.mem_cons_self).sequence
      refine ⟨.last s, ?_, ?_⟩
      · rw [Alternatives.symbols, hs, otherSymbols, List.append_nil]
      · rw [Alternatives.patterns, hpattern, List.map_singleton]
  | cons q ps ih =>
      obtain ⟨hp, hps⟩ := List.forall_mem_cons.mp h
      obtain ⟨s, hs, hpattern⟩ := hp.sequence
      obtain ⟨a, ha, hpatterns⟩ := ih q hps
      refine ⟨.cons s a, ?_, ?_⟩
      · rw [Alternatives.symbols, hs, ha, otherSymbols]
      · rw [Alternatives.patterns, hpattern, hpatterns]
        rfl

end Pattern.Parsable

/-- **`Writable` everywhere implies `Parsable`.** Induction on `p`, one of the four lemmas above for each
    constructor. -/
theorem Pattern.parsable (p : Pattern) (h : p.Everywhere Writable) : p.Parsable := by
  induction p using Pattern.inductionOn with
  | literal value =>
      refine .of_term (t := .mk (.literal (escape value.toList)) []) (Nat.le_succ 2) rfl ?_
      rw [Term.pattern, List.foldl_nil, Primary.pattern, unescape_escape, String.ofList_toList, unwrapped]
  | ref name =>
      refine .of_term (t := .mk (.name name.toList) []) (Nat.le_succ 2) rfl ?_
      rw [Term.pattern, List.foldl_nil, Primary.pattern, String.ofList_toList, unwrapped]
  | seq ps ih =>
      obtain ⟨hne, hparts⟩ := everywhere_seq.mp h
      cases ps with
      | nil => exact absurd rfl hne
      | cons p ps =>
          obtain ⟨s, hsymbols, hpatterns⟩ :=
            Parsable.exists_sequence p ps fun q hq => ih q hq (hparts q hq)
          refine .of_sequence rfl hsymbols ?_
          rw [hpatterns, unwrapped, unwrappedList_eq_map]
  | choice ps ih =>
      obtain ⟨hne, hparts⟩ := everywhere_choice.mp h
      cases ps with
      | nil => exact absurd rfl hne
      | cons p ps =>
          obtain ⟨a, hsymbols, hpatterns⟩ :=
            Parsable.exists_alternatives p ps fun q hq => ih q hq (hparts q hq)
          refine .of_alternatives rfl hsymbols ?_
          rw [hpatterns, unwrapped, unwrappedList_eq_map]
  | opt p ih => exact .of_suffix .question (ih (everywhere_opt.mp h).2) (Nat.le_refl 2) rfl rfl
  | rep p ih => exact .of_suffix .star (ih (everywhere_rep.mp h).2) (Nat.le_refl 2) rfl rfl

/-! ## Tables -/

/-- The name of `rule` is an `Identifier`, and its pattern is `Writable` everywhere. -/
def Rule.Writable (rule : Rule) : Prop :=
  Identifier rule.name.toList ∧ rule.pattern.Everywhere Pattern.Writable

instance (rule : Rule) : Decidable rule.Writable :=
  inferInstanceAs (Decidable (_ ∧ _))

def Rule.unwrapped (rule : Rule) : Rule :=
  { rule with pattern := rule.pattern.unwrapped }

theorem Table.printed_symbols {rules : List Rule} (h : ∀ rule ∈ rules, rule.Writable) :
    ∀ symbol ∈ Table.symbols ⟨rules⟩, symbol.Printed := by
  intro symbol hmem
  obtain ⟨rule, hrule, hsymbol⟩ := List.mem_flatMap.mp hmem
  obtain ⟨hname, hpattern⟩ := h rule hrule
  rw [Rule.symbols, List.cons_append, List.cons_append, List.mem_cons, List.mem_cons, List.mem_append,
    List.mem_singleton] at hsymbol
  rcases hsymbol with rfl | rfl | hsymbol | rfl
  · exact hname
  · trivial
  · exact rule.pattern.printed_symbols hpattern symbol hsymbol
  · trivial

/-- `Table.symbols` is the yield of a document with one line for each rule, and a blank line behind the last
    newline; it declares `rules.map Rule.unwrapped`. -/
theorem Table.exists_document (rules : List Rule) (h : ∀ rule ∈ rules, rule.Writable) :
    ∃ document : Document, document.symbols = Table.symbols ⟨rules⟩ ∧
      leadsWithContinuation document.lines = false ∧ continued document.lines = [] ∧
      declared document.lines = rules.map Rule.unwrapped := by
  induction rules with
  | nil => exact ⟨⟨.blank, []⟩, rfl, rfl, rfl, rfl⟩
  | cons rule rules ih =>
      obtain ⟨⟨_, hpattern⟩, hrules⟩ := List.forall_mem_cons.mp h
      obtain ⟨document, hsymbols, _, hcontinued, hdeclared⟩ := ih hrules
      obtain ⟨a, ha, hunwrapped⟩ := (rule.pattern.parsable hpattern).alternatives
      -- the newline behind this rule is the one that ends its line before the lines of the rest
      refine ⟨⟨.rule rule.name.toList a, document.lines⟩, ?_, rfl, rfl, ?_⟩
      · have hnewline : followingSymbols document.lines = .newline :: document.symbols := rfl
        rw [Document.symbols, hnewline, hsymbols, SourceLine.symbols, ha]
        simp [Table.symbols, Rule.symbols]
      · have hlines : declared (.rule rule.name.toList a :: document.lines) =
            ⟨String.ofList rule.name.toList, .oneOf (a.patterns ++ continued document.lines)⟩ ::
              declared document.lines := rfl
        rw [Document.lines, hlines, hcontinued, hdeclared, List.append_nil, hunwrapped,
          String.ofList_toList]
        rfl

/-- `Declares` for the printed text, by `tokensFrom_layout` and `Table.exists_document`. -/
theorem Table.declares_text {rules : List Rule} (hne : rules ≠ [])
    (h : ∀ rule ∈ rules, rule.Writable) :
    Declares (Table.text ⟨rules⟩).toList (rules.map Rule.unwrapped) := by
  have hprinted := Table.printed_symbols h
  obtain ⟨document, hsymbols, hleads, _, hdeclared⟩ := Table.exists_document rules h
  obtain ⟨tokens, htokens, hcut⟩ := tokensFrom_layout (fun x hx => (hprinted x hx).spellable) 0
  refine ⟨document, ⟨tokens, ?_, ?_, hsymbols.trans hcut.symm⟩, hleads, hdeclared, by simpa using hne⟩
  · rw [Table.text, String.toList_ofList, tokenize, htokens]
    rfl
  · intro token htoken body hbody
    have hmem : Symbol.literal body ∈ Table.symbols ⟨rules⟩ := by
      rw [← hcut, ← hbody]
      exact List.mem_map_of_mem htoken
    obtain ⟨value, rfl⟩ := hprinted _ hmem
    rw [unescape_escape]
    exact decodes_escape value

/-! ## Compiled patterns -/

/-- The invariant of compiled patterns. -/
def Pattern.Settled (p : Pattern) : Prop :=
  p.Writable ∧ p.Compact

namespace Pattern

theorem ne_nil_of_two_le {ps : List Pattern} (h : 2 ≤ ps.length) : ps ≠ [] := by
  rintro rfl
  cases h

/-- `Pattern.sequence` keeps `Everywhere Settled`, since it unwraps one-element lists; `settled_oneOf` likewise. -/
theorem settled_sequence {ps : List Pattern} (hne : ps ≠ []) (h : ∀ p ∈ ps, p.Everywhere Settled) :
    (sequence ps).Everywhere Settled := by
  match ps, hne with
  | [p], _ => exact h p List.mem_cons_self
  | p :: q :: ps, _ =>
      have htwo : 2 ≤ (p :: q :: ps).length := Nat.le_add_left 2 ps.length
      exact everywhere_seq.mpr ⟨⟨ne_nil_of_two_le htwo, htwo⟩, h⟩

theorem settled_oneOf {ps : List Pattern} (hne : ps ≠ []) (h : ∀ p ∈ ps, p.Everywhere Settled) :
    (oneOf ps).Everywhere Settled := by
  match ps, hne with
  | [p], _ => exact h p List.mem_cons_self
  | p :: q :: ps, _ =>
      have htwo : 2 ≤ (p :: q :: ps).length := Nat.le_add_left 2 ps.length
      exact everywhere_choice.mpr ⟨⟨ne_nil_of_two_le htwo, htwo⟩, h⟩

end Pattern

namespace Grammar

open Pattern

theorem Alternatives.patterns_ne_nil (a : Alternatives) : a.patterns ≠ [] := by
  cases a with
  | last s => exact List.cons_ne_nil _ _
  | cons s a => exact List.cons_ne_nil _ _

theorem settled_suffixes (suffixes : List Suffix) (p : Pattern) (h : p.Everywhere Settled) :
    (suffixes.foldl Suffix.apply p).Everywhere Settled := by
  induction suffixes generalizing p with
  | nil => exact h
  | cons s suffixes ih =>
      refine ih (s.apply p) ?_
      cases s with
      | question => exact everywhere_opt.mpr ⟨⟨trivial, trivial⟩, h⟩
      | star => exact everywhere_rep.mpr ⟨⟨trivial, trivial⟩, h⟩

-- A mutual induction on trees. The names in a tree are among its symbols, and lists are built by
-- `sequence` and `oneOf` only, so none of them has a single element.
mutual
theorem Primary.settled : ∀ p : Primary, (∀ x ∈ p.symbols, x.Spellable) → p.pattern.Everywhere Settled
  | .literal body, _ => everywhere_literal.mpr ⟨trivial, trivial⟩
  | .name text, h => by
      have hname : Identifier text := h (.name text) List.mem_cons_self
      refine everywhere_ref.mpr ⟨?_, trivial⟩
      rw [Writable, String.toList_ofList]
      exact hname
  | .group a, h => by
      refine settled_oneOf a.patterns_ne_nil (Alternatives.settled a fun x hx => h x ?_)
      exact List.mem_cons_of_mem _ (List.mem_append_left _ hx)
theorem Term.settled : ∀ t : Term, (∀ x ∈ t.symbols, x.Spellable) → t.pattern.Everywhere Settled
  | .mk p suffixes, h =>
      settled_suffixes suffixes p.pattern (Primary.settled p fun x hx => h x (List.mem_append_left _ hx))
theorem Sequence.settled : ∀ s : Sequence, (∀ x ∈ s.symbols, x.Spellable) →
    ∀ p ∈ s.patterns, p.Everywhere Settled
  | .last t, h => List.forall_mem_singleton.mpr (Term.settled t h)
  | .cons t s, h => by
      rw [Sequence.symbols, List.forall_mem_append] at h
      exact List.forall_mem_cons.mpr ⟨Term.settled t h.1, Sequence.settled s h.2⟩
theorem Alternatives.settled : ∀ a : Alternatives, (∀ x ∈ a.symbols, x.Spellable) →
    ∀ p ∈ a.patterns, p.Everywhere Settled
  | .last s, h =>
      List.forall_mem_singleton.mpr (settled_sequence s.patterns_ne_nil (Sequence.settled s h))
  | .cons s a, h => by
      rw [Alternatives.symbols, List.forall_mem_append, List.forall_mem_cons] at h
      exact List.forall_mem_cons.mpr
        ⟨settled_sequence s.patterns_ne_nil (Sequence.settled s h.1), Alternatives.settled a h.2.2⟩
end

theorem settled_continued {sources : List SourceLine}
    (h : ∀ source ∈ sources, ∀ x ∈ source.symbols, x.Spellable) :
    ∀ p ∈ continued sources, p.Everywhere Settled := by
  fun_induction continued sources with
  | case1 => exact fun _ hmem => absurd hmem List.not_mem_nil
  | case2 sources ih => exact ih (List.forall_mem_cons.mp h).2
  | case3 a sources ih =>
      obtain ⟨hsource, hsources⟩ := List.forall_mem_cons.mp h
      have ha := Alternatives.settled a (List.forall_mem_cons.mp hsource).2
      exact List.forall_mem_append.mpr ⟨ha, ih hsources⟩
  | case4 => exact fun _ hmem => absurd hmem List.not_mem_nil

theorem settled_declared {sources : List SourceLine}
    (h : ∀ source ∈ sources, ∀ x ∈ source.symbols, x.Spellable) :
    ∀ rule ∈ declared sources, Identifier rule.name.toList ∧ rule.pattern.Everywhere Settled := by
  fun_induction declared sources with
  | case1 => exact fun _ hmem => absurd hmem List.not_mem_nil
  | case2 sources ih => exact ih (List.forall_mem_cons.mp h).2
  | case3 a sources ih => exact ih (List.forall_mem_cons.mp h).2
  | case4 name a sources ih =>
      obtain ⟨hsource, hsources⟩ := List.forall_mem_cons.mp h
      obtain ⟨hname, _, hbody⟩ : Identifier name ∧ True ∧ ∀ x ∈ a.symbols, x.Spellable := by
        rw [SourceLine.symbols, List.forall_mem_cons, List.forall_mem_cons] at hsource
        exact hsource
      refine List.forall_mem_cons.mpr ⟨⟨?_, settled_oneOf ?_ ?_⟩, ih hsources⟩
      · rw [String.toList_ofList]
        exact hname
      · exact fun hnil => a.patterns_ne_nil (List.append_eq_nil_iff.mp hnil).1
      · exact List.forall_mem_append.mpr ⟨Alternatives.settled a hbody, settled_continued hsources⟩

theorem Document.mem_symbols {document : Document} {source : SourceLine} {x : Symbol}
    (h : source ∈ document.lines) (hx : x ∈ source.symbols) : x ∈ document.symbols := by
  rw [Document.symbols, List.mem_append]
  rcases List.mem_cons.mp h with rfl | hrest
  · exact .inl hx
  · exact .inr (List.mem_flatMap.mpr ⟨source, hrest, List.mem_cons_of_mem _ hx⟩)

/-- Rules that a text `Declares` have `Identifier`s and patterns that are `Settled` everywhere. -/
theorem settled_of_declares {source : List Char} {rules : List Rule} (h : Declares source rules) :
    ∀ rule ∈ rules, Identifier rule.name.toList ∧ rule.pattern.Everywhere Settled := by
  obtain ⟨document, ⟨tokens, htokens, _, hsymbols⟩, _, rfl, _⟩ := h
  refine settled_declared fun line hline x hx => ?_
  have hmem : x ∈ tokens.map (·.symbol) := hsymbols ▸ Document.mem_symbols hline hx
  obtain ⟨token, htoken, rfl⟩ := List.mem_map.mp hmem
  exact tokensFrom_spellable (tokensFrom_of_tokenize htokens) token htoken

end Grammar

/-! ## The round trip -/

/-- **`compile` inverts `Table.text`.** For `Writable` rules `compile (Table.text ⟨rules⟩)` is
    `⟨rules.map Rule.unwrapped⟩`. Every compiled table is `Compact`, so there `unwrapped` is the identity and
    `compile table.text = .ok table`. -/
theorem compile_text :
    (∀ rules : List Rule, rules ≠ [] → (∀ rule ∈ rules, rule.Writable) →
      compile (Table.text ⟨rules⟩) = .ok ⟨rules.map Rule.unwrapped⟩) ∧
    (∀ source table, compile source = .ok table →
      (∀ rule ∈ table.rules, rule.pattern.Everywhere Pattern.Compact) ∧
      compile table.text = .ok table) := by
  have hprint : ∀ rules : List Rule, rules ≠ [] → (∀ rule ∈ rules, rule.Writable) →
      compile (Table.text ⟨rules⟩) = .ok ⟨rules.map Rule.unwrapped⟩ :=
    fun rules hne hrules => (Table.declares_text hne hrules).compile
  refine ⟨hprint, fun source table hcompile => ?_⟩
  have hdeclares := declares_of_compile hcompile
  have hsettled := settled_of_declares hdeclares
  have hcompact : ∀ rule ∈ table.rules, rule.pattern.Everywhere Pattern.Compact :=
    fun rule hrule => (hsettled rule hrule).2.mono fun _ h => h.2
  have hwritable : ∀ rule ∈ table.rules, rule.Writable :=
    fun rule hrule => ⟨(hsettled rule hrule).1, (hsettled rule hrule).2.mono fun _ h => h.1⟩
  have hunwrapped : table.rules.map Rule.unwrapped = table.rules := by
    have hself : ∀ rule ∈ table.rules, rule.unwrapped = rule := fun rule hrule => by
      rw [Rule.unwrapped, Pattern.unwrapped_eq_self _ (hcompact rule hrule)]
    rw [List.map_congr_left hself, List.map_id']
  obtain ⟨_, _, _, _, hne⟩ := hdeclares
  refine ⟨hcompact, ?_⟩
  have hround := hprint table.rules hne hwritable
  rw [hunwrapped] at hround
  exact hround

/-- One-element lists, and literals that need escapes. -/
def wrappedRule : Rule :=
  ⟨"pair", .seq [.choice [.literal "\"\n", .seq [.ref "pair", .literal ""]],
    .opt (.seq [.rep (.ref "pair")])]⟩

theorem compile_text_wrappedRule :
    compile (Table.text ⟨[wrappedRule]⟩) = .ok ⟨[wrappedRule.unwrapped]⟩ ∧
      compile (Table.text ⟨[wrappedRule.unwrapped]⟩) = .ok ⟨[wrappedRule.unwrapped]⟩ := by
  have hwritable : ∀ rule ∈ [wrappedRule], rule.Writable := List.forall_mem_singleton.mpr (by decide)
  have hcompile := compile_text.1 [wrappedRule] (List.cons_ne_nil _ _) hwritable
  exact ⟨hcompile, (compile_text.2 _ _ hcompile).2⟩

end PegTree
