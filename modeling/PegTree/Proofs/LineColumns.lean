import Mathlib.Data.List.GetD
import Mathlib.Data.List.TakeWhile
import PegTree.Text.Position

/-!
# `Proofs.LineColumns` — looking a position up is counting

A position is looked up by byte: in a table of line starts, then in the bytes of one line. What it ought to be is
told by the characters before the place: how many newlines there are among them, and how many characters stand
behind the last one (`Position.after`).

* **Between two characters the two agree** (`position_append`), and past the end of the text the end is meant
  (`position_of_le`).
* **The line can be found by halving the table** (`searchLine?_ofText`): the search always brackets the offset, so
  stepping back from the place where the offset would be put in never leaves the table.
* **Places further on have later positions** (`Position.after_before`).

Offsets between two characters are the valid positions of the string, which are the lengths of its beginnings
(`isValid_iff`).
-/

namespace PegTree.Text

/-! ## Characters and bytes -/

theorem utf8ByteSize_ofList (cs : List Char) : (String.ofList cs).utf8ByteSize = utf8Length cs := by
  induction cs with
  | nil => rfl
  | cons c cs ih =>
      have hcons : String.ofList (c :: cs) = String.singleton c ++ String.ofList cs := by
        rw [String.singleton_eq_ofList, ← String.ofList_append, List.singleton_append]
      rw [hcons, String.utf8ByteSize_append, String.utf8ByteSize_singleton, ih, utf8Length]

theorem utf8Length_toList (source : String) : utf8Length source.toList = source.utf8ByteSize := by
  rw [← utf8ByteSize_ofList, String.ofList_toList]

/-- **Valid offsets** are the lengths `utf8Length before` of the prefixes `before <+: source.toList`. -/
theorem isValid_iff {source : String} {offset : Nat} :
    String.Pos.Raw.IsValid source ⟨offset⟩ ↔ ∃ before, before <+: source.toList ∧ utf8Length before = offset := by
  rw [String.Pos.Raw.isValid_iff_exists_append]
  constructor
  · rintro ⟨before, after, rfl, hoffset⟩
    refine ⟨before.toList, ?_, ?_⟩
    · rw [String.toList_append]
      exact List.prefix_append _ _
    · rw [utf8Length_toList]
      exact (congrArg String.Pos.Raw.byteIdx hoffset).symm
  · rintro ⟨before, ⟨after, hsource⟩, rfl⟩
    refine ⟨String.ofList before, String.ofList after, ?_, ?_⟩
    · rw [← String.ofList_append, hsource, String.ofList_toList]
    · rw [← utf8ByteSize_ofList]
      rfl

theorem utf8Length_le_of_isPrefix {a b : List Char} (h : a <+: b) : utf8Length a ≤ utf8Length b := by
  obtain ⟨after, rfl⟩ := h
  rw [utf8Length_append]
  exact Nat.le_add_right _ _

theorem dropBytes_append (a b : List Char) : dropBytes (utf8Length a) (a ++ b) = b := by
  induction a with
  | nil => rw [utf8Length, List.nil_append, dropBytes]
  | cons c a ih =>
      obtain ⟨n, hn⟩ := Nat.exists_eq_succ_of_ne_zero (Nat.ne_of_gt c.utf8Size_pos)
      have hlength : utf8Length (c :: a) = n + utf8Length a + 1 := by
        rw [utf8Length, hn]
        omega
      rw [hlength, List.cons_append, dropBytes, ← hlength, utf8Length, Nat.add_sub_cancel_left, ih]

theorem charsFilling?_append (a b : List Char) : charsFilling? (utf8Length a) (a ++ b) = some a.length := by
  induction a with
  | nil => simp [utf8Length, charsFilling?]
  | cons c a ih =>
      obtain ⟨n, hn⟩ := Nat.exists_eq_succ_of_ne_zero (Nat.ne_of_gt c.utf8Size_pos)
      have hlength : utf8Length (c :: a) = n + utf8Length a + 1 := by
        rw [utf8Length, hn]
        omega
      have hfits : c.utf8Size ≤ utf8Length (c :: a) := Nat.le_add_right _ _
      rw [hlength, List.cons_append, charsFilling?, ← hlength, if_pos hfits, utf8Length,
        Nat.add_sub_cancel_left, ih]
      rfl

/-- **`span.Covers text piece`**: `text = before ++ piece ++ after`, and `span` runs from `utf8Length before` to
    `utf8Length (before ++ piece)`. -/
def Span.Covers (text : List Char) (span : Span) (piece : List Char) : Prop :=
  ∃ before after, text = before ++ (piece ++ after) ∧ span = ⟨utf8Length before, utf8Length (before ++ piece)⟩

def Span.InText (text : List Char) (span : Span) : Prop :=
  ∃ piece, span.Covers text piece

theorem covers_end (text : List Char) : Span.Covers text ⟨utf8Length text, utf8Length text⟩ [] :=
  ⟨text, [], by simp, by rw [List.append_nil]⟩

/-! ## Counting -/

/-- The characters of `before` behind its last `'\n'`, all of them if there is none. -/
def lastLine (before : List Char) : List Char :=
  (before.reverse.takeWhile (· != '\n')).reverse

/-- **The position behind `before`**, by definition: the number of `'\n'` in it, and the length of its
    `lastLine`. -/
def Position.after (before : List Char) : Position :=
  ⟨before.count '\n', (lastLine before).length⟩

theorem newline_not_mem_lastLine (before : List Char) : '\n' ∉ lastLine before := by
  intro hmem
  have hne := List.mem_takeWhile_imp (List.mem_reverse.mp hmem)
  exact absurd hne (by decide)

/-- `before = lines ++ lastLine before`, with `lines` empty or ending in `'\n'`. -/
theorem exists_lastLine (before : List Char) :
    ∃ lines, before = lines ++ lastLine before ∧ (lines = [] ∨ ∃ front, lines = front ++ ['\n']) := by
  refine ⟨(before.reverse.dropWhile (· != '\n')).reverse, ?_, ?_⟩
  · rw [lastLine, ← List.reverse_append, List.takeWhile_append_dropWhile, List.reverse_reverse]
  · have hhead := List.head?_dropWhile_not (· != '\n') before.reverse
    cases hrest : before.reverse.dropWhile (· != '\n') with
    | nil => exact .inl rfl
    | cons c rest =>
        rw [hrest] at hhead
        have hc : c = '\n' := by simpa using hhead
        exact .inr ⟨rest.reverse, by rw [List.reverse_cons, hc]⟩

theorem lastLine_append_of_not_mem {a b : List Char} (h : '\n' ∉ b) : lastLine (a ++ b) = lastLine a ++ b := by
  have hall : ∀ c ∈ b.reverse, (c != '\n') = true := by
    intro c hc
    rw [bne_iff_ne]
    rintro rfl
    exact h (List.mem_reverse.mp hc)
  rw [lastLine, List.reverse_append, List.takeWhile_append_of_pos hall, List.reverse_append, List.reverse_reverse]
  rfl

/-- The lexicographic order of positions: lines first, then columns. -/
def Position.Before (p q : Position) : Prop :=
  p.line < q.line ∨ (p.line = q.line ∧ p.column < q.column)

/-- **`Position.after` is strictly monotone in the prefix order**: `'\n' ∈ b` raises the line, and otherwise `b`
    lengthens the last line. -/
theorem Position.after_before (a : List Char) {b : List Char} (hb : b ≠ []) :
    (Position.after a).Before (Position.after (a ++ b)) := by
  by_cases hnewline : '\n' ∈ b
  · left
    show a.count '\n' < (a ++ b).count '\n'
    rw [List.count_append]
    exact Nat.lt_add_of_pos_right (List.count_pos_iff.mpr hnewline)
  · right
    constructor
    · show a.count '\n' = (a ++ b).count '\n'
      rw [List.count_append, List.count_eq_zero_of_not_mem hnewline, Nat.add_zero]
    · show (lastLine a).length < (lastLine (a ++ b)).length
      rw [lastLine_append_of_not_mem hnewline, List.length_append]
      exact Nat.lt_add_of_pos_right (List.length_pos_iff.mpr hb)

/-! ## The table of line starts -/

theorem newlineStops_append (offset : Nat) (a b : List Char) :
    newlineStops offset (a ++ b) = newlineStops offset a ++ newlineStops (offset + utf8Length a) b := by
  induction a generalizing offset with
  | nil => rfl
  | cons c a ih =>
      simp only [List.cons_append, newlineStops, ih, utf8Length, Nat.add_assoc]
      split
      · rfl
      · rfl

theorem length_newlineStops (offset : Nat) (cs : List Char) :
    (newlineStops offset cs).length = cs.count '\n' := by
  induction cs generalizing offset with
  | nil => rfl
  | cons c cs ih =>
      rw [newlineStops, List.count_cons]
      split
      · next hc => rw [List.length_cons, ih, if_pos (beq_iff_eq.mpr hc)]
      · next hc => rw [ih, if_neg (by simpa using hc), Nat.add_zero]

/-- Every member `stop` of `newlineStops offset cs` has `offset < stop ≤ offset + utf8Length cs`. -/
theorem newlineStops_bounds {offset stop : Nat} {cs : List Char} (h : stop ∈ newlineStops offset cs) :
    offset < stop ∧ stop ≤ offset + utf8Length cs := by
  induction cs generalizing offset with
  | nil => exact absurd h List.not_mem_nil
  | cons c cs ih =>
      have hpos := c.utf8Size_pos
      have hmore : stop = offset + c.utf8Size ∨ stop ∈ newlineStops (offset + c.utf8Size) cs := by
        rw [newlineStops] at h
        split at h
        · exact List.mem_cons.mp h
        · exact .inr h
      rw [utf8Length]
      rcases hmore with rfl | hmem
      · omega
      · have hbounds := ih hmem
        omega

theorem newlineStops_ascending (offset : Nat) (cs : List Char) : (newlineStops offset cs).Pairwise (· < ·) := by
  induction cs generalizing offset with
  | nil => exact .nil
  | cons c cs ih =>
      rw [newlineStops]
      split
      · exact .cons (fun stop hstop => (newlineStops_bounds hstop).1) (ih _)
      · exact ih _

namespace LineIndex

theorem starts_ascending (text : List Char) : (ofText text).starts.Pairwise (· < ·) :=
  .cons (fun _ hstop => (newlineStops_bounds hstop).1) (newlineStops_ascending 0 text)

theorem starts_append (a b : List Char) :
    (ofText (a ++ b)).starts = (ofText a).starts ++ newlineStops (utf8Length a) b := by
  rw [ofText, newlineStops_append, Nat.zero_add]
  rfl

/-- The starts of `before ++ after` that are `≤ utf8Length before` are the starts of `before`. -/
theorem takeWhile_starts (before after : List Char) :
    (ofText (before ++ after)).starts.takeWhile (· ≤ utf8Length before) = (ofText before).starts := by
  have hwithin : ∀ start ∈ (ofText before).starts, decide (start ≤ utf8Length before) = true := by
    intro start hstart
    rw [decide_eq_true_eq]
    rcases List.mem_cons.mp hstart with rfl | hstart
    · exact Nat.zero_le _
    · exact Nat.zero_add (utf8Length before) ▸ (newlineStops_bounds hstart).2
  have hbehind : (newlineStops (utf8Length before) after).takeWhile (· ≤ utf8Length before) = [] := by
    cases hstops : newlineStops (utf8Length before) after with
    | nil => rfl
    | cons start stops =>
        have hmem : start ∈ newlineStops (utf8Length before) after := hstops ▸ List.mem_cons_self
        have hpast : ¬ start ≤ utf8Length before := Nat.not_le.mpr (newlineStops_bounds hmem).1
        exact List.takeWhile_cons_of_neg (by simpa using hpast)
  rw [starts_append, List.takeWhile_append_of_pos hwithin, hbehind, List.append_nil]

theorem lineOf_append (before after : List Char) :
    (ofText (before ++ after)).lineOf (utf8Length before) = before.count '\n' := by
  rw [lineOf, takeWhile_starts, ← length_newlineStops 0]
  rfl

/-- `starts` at index `lines.count '\n'` is `utf8Length lines`, if `lines` is empty or ends in `'\n'`. -/
theorem starts_getD {lines : List Char} (hlines : lines = [] ∨ ∃ front, lines = front ++ ['\n'])
    (rest : List Char) : (ofText (lines ++ rest)).starts.getD (lines.count '\n') 0 = utf8Length lines := by
  rcases hlines with rfl | ⟨front, rfl⟩
  · rfl
  · have hstart : (ofText (front ++ ['\n'])).starts = (ofText front).starts ++ [utf8Length (front ++ ['\n'])] := by
      rw [starts_append, utf8Length_append]
      rfl
    have hplace : (front ++ ['\n']).count '\n' = (ofText front).starts.length := by
      rw [List.count_append, ← length_newlineStops 0 front]
      rfl
    rw [starts_append, hstart, hplace, List.append_assoc, List.getD_eq_getElem?_getD,
      List.getElem?_append_right (Nat.le_refl _), Nat.sub_self]
    rfl

/-- **`position` at `utf8Length before` is `Position.after before`**, whatever follows. -/
theorem position_append (before after : List Char) :
    (ofText (before ++ after)).position (utf8Length before) = Position.after before := by
  obtain ⟨lines, hbefore, hlines⟩ := exists_lastLine before
  have hinside : min (utf8Length before) (utf8Length (before ++ after)) = utf8Length before :=
    Nat.min_eq_left (utf8Length_le_of_isPrefix (List.prefix_append _ _))
  have hcount : before.count '\n' = lines.count '\n' := by
    rw [hbefore, List.count_append, List.count_eq_zero_of_not_mem (newline_not_mem_lastLine before), Nat.add_zero]
  have hstart : (ofText (before ++ after)).starts.getD (lines.count '\n') 0 = utf8Length lines := by
    rw [hbefore, List.append_assoc]
    exact starts_getD hlines _
  have hwidth : utf8Length before - utf8Length lines = utf8Length (lastLine before) := by
    rw [hbefore, utf8Length_append, Nat.add_sub_cancel_left, ← hbefore]
  have hdrop : dropBytes (utf8Length lines) (before ++ after) = lastLine before ++ after := by
    rw [hbefore, List.append_assoc, dropBytes_append, ← hbefore]
  unfold position
  simp only [show (ofText (before ++ after)).text = before ++ after from rfl, hinside, lineOf_append, hcount, hstart,
    hwidth, hdrop, charsFilling?_append, Option.getD_some]
  rw [Position.after, hcount]

/-- `position` of an offset at or past the end is `Position.after text`. -/
theorem position_of_le {text : List Char} {offset : Nat} (h : utf8Length text ≤ offset) :
    (ofText text).position offset = Position.after text := by
  have hend := position_append text []
  rw [List.append_nil] at hend
  rw [← hend]
  unfold position
  rw [show (ofText text).text = text from rfl, Nat.min_eq_right h, Nat.min_self]

end LineIndex

/-! ## Halving -/

/-- Binary search: of the indices `base, …, base + count - 1` the last whose entry is `≤ x`. -/
def bisect (xs : List Nat) (x : Nat) (base count : Nat) : Nat :=
  if count ≤ 1 then base
  else if x < xs.getD (base + count / 2) 0 then bisect xs x base (count - count / 2)
  else bisect xs x (base + count / 2) (count - count / 2)
termination_by count

/-- `.ok i` with `xs.getD i 0 = x`, or `.error i` with the index at which `x` would be inserted; `xs` is
    ascending. -/
def search (xs : List Nat) (x : Nat) : Except Nat Nat :=
  if xs.isEmpty then .error 0
  else
    let base := bisect xs x 0 xs.length
    if xs.getD base 0 = x then .ok base
    else if xs.getD base 0 < x then .error (base + 1)
    else .error base

theorem getD_le_of_ascending {xs : List Nat} (hxs : xs.Pairwise (· < ·)) {i j : Nat} (hij : i ≤ j)
    (hj : j < xs.length) : xs.getD i 0 ≤ xs.getD j 0 := by
  have hi : i < xs.length := Nat.lt_of_le_of_lt hij hj
  rw [List.getD_eq_getElem xs 0 hi, List.getD_eq_getElem xs 0 hj]
  rcases Nat.eq_or_lt_of_le hij with rfl | hlt
  · exact Nat.le_refl _
  · exact Nat.le_of_lt (List.pairwise_iff_getElem.mp hxs i j hi hj hlt)

/-- **The invariant of `bisect`**: the entry at `base` is `≤ x`, and the one at `base + count`, if there is one, is
    `> x`. -/
structure Brackets (xs : List Nat) (x base count : Nat) : Prop where
  pos : 0 < count
  inside : base + count ≤ xs.length
  low : xs.getD base 0 ≤ x
  high : base + count < xs.length → x < xs.getD (base + count) 0

/-- `bisect` keeps `Brackets` and ends with `count = 1`. -/
theorem Brackets.bisect {xs : List Nat} (hxs : xs.Pairwise (· < ·)) {x base count : Nat}
    (h : Brackets xs x base count) : Brackets xs x (Text.bisect xs x base count) 1 := by
  fun_induction Text.bisect xs x base count with
  | case1 base count hcount =>
      have hone : count = 1 := Nat.le_antisymm hcount h.pos
      exact hone ▸ h
  | case2 base count hcount habove ih =>
      have hinside := h.inside
      refine ih ⟨by omega, by omega, h.low, fun hbehind => ?_⟩
      -- when the count is odd the middle stays in, and the next number is greater still
      exact Nat.lt_of_lt_of_le habove (getD_le_of_ascending hxs (by omega) hbehind)
  | case3 base count hcount habove ih =>
      have hinside := h.inside
      have hwhole : base + count / 2 + (count - count / 2) = base + count := by omega
      refine ih ⟨by omega, by omega, Nat.le_of_not_lt habove, ?_⟩
      rw [hwhole]
      exact h.high

/-- A bracket of one index counts: `base + 1` entries are `≤ x`. -/
theorem Brackets.length_takeWhile {xs : List Nat} (hxs : xs.Pairwise (· < ·)) {x base : Nat}
    (h : Brackets xs x base 1) : (xs.takeWhile (· ≤ x)).length = base + 1 := by
  have hinside := h.inside
  have hlow : ∀ y ∈ xs.take (base + 1), decide (y ≤ x) = true := by
    intro y hy
    obtain ⟨i, hi, rfl⟩ := List.mem_take_iff_getElem.mp hy
    have hle := getD_le_of_ascending hxs (Nat.le_of_lt_succ (Nat.lt_of_lt_of_le hi (Nat.min_le_left _ _)))
      (Nat.lt_of_succ_le hinside)
    rw [List.getD_eq_getElem xs 0 (Nat.lt_of_lt_of_le hi (Nat.min_le_right _ _))] at hle
    exact decide_eq_true (Nat.le_trans hle h.low)
  have hhigh : (xs.drop (base + 1)).takeWhile (· ≤ x) = [] := by
    cases hdrop : xs.drop (base + 1) with
    | nil => rfl
    | cons y ys =>
        have hy : xs[base + 1]? = some y := by
          rw [← List.head?_drop, hdrop]
          rfl
        have hlt := h.high (List.getElem?_eq_some_iff.mp hy).1
        rw [List.getD_eq_getElem?_getD, hy] at hlt
        exact List.takeWhile_cons_of_neg (by simpa using hlt)
  rw [← List.take_append_drop (base + 1) xs, List.takeWhile_append_of_pos hlow, hhigh, List.append_nil,
    List.length_take, Nat.min_eq_left hinside]

namespace LineIndex

/-- The line by `search` instead of `takeWhile`: the index of `offset` among the starts, or one less than the index
    where it would be inserted, so `none` at insertion index 0. -/
def searchLine? (index : LineIndex) (offset : Nat) : Option Nat :=
  match search index.starts offset with
  | .ok line => some line
  | .error next => if next = 0 then none else some (next - 1)

/-- **`searchLine?` never returns `none`, and agrees with `lineOf`.** -/
theorem searchLine?_ofText (text : List Char) (offset : Nat) :
    (ofText text).searchLine? offset = some ((ofText text).lineOf offset) := by
  have hxs := starts_ascending text
  have hwhole : Brackets (ofText text).starts offset 0 (ofText text).starts.length :=
    ⟨Nat.succ_pos _, Nat.le_of_eq (Nat.zero_add _), Nat.zero_le _, fun h => absurd h (by omega)⟩
  have hfound := hwhole.bisect hxs
  have hline : (ofText text).lineOf offset = bisect (ofText text).starts offset 0 (ofText text).starts.length := by
    rw [lineOf, hfound.length_takeWhile hxs, Nat.add_sub_cancel]
  have hsome : (ofText text).starts.isEmpty = false := rfl
  have hlow := hfound.low
  rw [hline, searchLine?, search, hsome]
  simp only [Bool.false_eq_true, if_false]
  split
  · next line hsearch =>
      split at hsearch
      · cases hsearch
        rfl
      · split at hsearch <;> cases hsearch
  · next next hsearch =>
      split at hsearch
      · cases hsearch
      · next hne =>
          rw [if_pos (Nat.lt_of_le_of_ne hlow hne)] at hsearch
          cases hsearch
          rfl

end LineIndex

end PegTree.Text
