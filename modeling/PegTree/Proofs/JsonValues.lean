import Mathlib.Tactic.IntervalCases
import PegTree.Json.Number
import PegTree.Json.Quoted

/-!
# `Proofs.JsonValues` — strings and whole numbers are read as they are written

`Reads` says of a reader that it takes a text and nothing else off the front of what it is given, with blanks in
front, and finds a value in it.

* **Strings** (`readString_quoted`): every character is read back from the way it is written, whether as itself, as
  a short escape or by its code unit (`stringFrom_quotedChar`).
* **Whole numbers** (`readNumber_toDigits`): the digits spell the number (`digitsValue_toDigits`), no zero comes
  first (`head?_toDigits`), and a number of 64 bits is far inside the range (`outOfRange_whole`).
-/

namespace PegTree.Json

open Text

/-! ## Blanks -/

/-- All of `gap` are blanks. -/
def Blanks (gap : List Char) : Prop :=
  ∀ c ∈ gap, isBlank c = true

theorem isBlank_iff {c : Char} : isBlank c = true ↔ c = ' ' ∨ c = '\n' ∨ c = '\t' ∨ c = '\r' := by
  unfold isBlank
  simp only [Bool.or_eq_true, beq_iff_eq, or_assoc]

theorem blanks_nil : Blanks [] := by
  intro c hc
  cases hc

theorem Blanks.cons {c : Char} {gap : List Char} (hgap : Blanks gap) (hc : isBlank c = true) : Blanks (c :: gap) :=
  List.forall_mem_cons.mpr ⟨hc, hgap⟩

theorem skipBlanks_cons {c : Char} (hc : isBlank c = false) (text : List Char) :
    skipBlanks (c :: text) = c :: text :=
  List.dropWhile_cons_of_neg (by rw [hc]; decide)

theorem skipBlanks_gap {c : Char} {gap : List Char} (hgap : Blanks gap) (hc : isBlank c = false)
    (text : List Char) : skipBlanks (gap ++ c :: text) = c :: text := by
  have hskip : skipBlanks (gap ++ c :: text) = skipBlanks (c :: text) := List.dropWhile_append_of_pos hgap
  rw [hskip, skipBlanks_cons hc]

/-- **`Reads reader text value tail`**: on `text ++ tail`, with blanks in front, `reader` returns `value` and leaves
    `tail`. -/
def Reads {α : Type} (reader : Reader α) (text : List Char) (value : α) (tail : List Char) : Prop :=
  ∀ gap, Blanks gap → reader (gap ++ (text ++ tail)) = .ok (value, tail)

theorem Reads.map {α β : Type} {reader : Reader α} {text tail : List Char} {value : α}
    (h : Reads reader text value tail) (f : α → β) :
    Reads (fun text => (reader text).map fun (v, rest) => (f v, rest)) text (f value) tail := by
  intro gap hgap
  show Except.map _ (reader _) = _
  rw [h gap hgap]
  rfl

/-! ## Strings -/

/-- `codeUnit` inverts `hexPadded 4` below `0x20`. -/
theorem codeUnit_hexPadded {n : Nat} (hn : n < 0x20) (rest : List Char) :
    codeUnit (hexPadded 4 n ++ rest) = .ok (n, rest) := by
  -- for a given code the digits are computed, whatever follows them
  interval_cases n <;> rfl

theorem codePoint_hexPadded {c : Char} (hc : c.toNat < 0x20) (rest : List Char) :
    codePoint (hexPadded 4 c.toNat ++ rest) = .ok (c, rest) := by
  have hlow : ¬ (0xDC00 ≤ c.toNat ∧ c.toNat ≤ 0xDFFF) := by omega
  have hhigh : ¬ (0xD800 ≤ c.toNat ∧ c.toNat ≤ 0xDBFF) := by omega
  simp only [codePoint, codeUnit_hexPadded hc, if_neg hlow, if_neg hhigh, Char.ofNat_toNat]

/-- **`stringFrom` inverts `quotedChar`**, whatever follows: as itself, as a short escape, or by its code unit. -/
theorem stringFrom_quotedChar (fuel : Nat) (c : Char) (rest : List Char) :
    stringFrom (fuel + 1) (quotedChar c ++ rest)
      = (stringFrom fuel rest).map fun (more, rest) => (c :: more, rest) := by
  fun_cases quotedChar c with
  | case8 _ _ _ _ _ _ _ hcontrol =>
      have hescape : escapedChar ('u' :: (hexPadded 4 c.toNat ++ rest)) = .ok (c, rest) :=
        codePoint_hexPadded hcontrol rest
      rw [List.cons_append, List.cons_append, stringFrom, if_neg (by decide), if_pos rfl, hescape]
  | case9 hquote hbackslash _ _ _ _ _ hprinted =>
      rw [List.singleton_append, stringFrom, if_neg hquote, if_neg hbackslash, if_neg hprinted]
  | _ =>
      subst_vars
      rfl

theorem stringFrom_quoted {fuel : Nat} {text : List Char} (hfuel : text.length < fuel) (tail : List Char) :
    stringFrom fuel (text.flatMap quotedChar ++ '"' :: tail) = .ok (text, tail) := by
  induction text generalizing fuel with
  | nil =>
      obtain ⟨fuel, rfl⟩ := Nat.exists_eq_add_of_lt hfuel
      rfl
  | cons c text ih =>
      cases fuel with
      | zero => cases hfuel
      | succ fuel =>
          rw [List.length_cons, Nat.succ_lt_succ_iff] at hfuel
          rw [List.flatMap_cons, List.append_assoc, stringFrom_quotedChar, ih hfuel]
          rfl

theorem length_quotedChar_pos (c : Char) : 0 < (quotedChar c).length := by
  unfold quotedChar
  repeat' split
  all_goals exact Nat.succ_pos _

theorem length_le_flatMap_quotedChar (text : List Char) :
    text.length ≤ (text.flatMap quotedChar).length := by
  induction text with
  | nil => exact Nat.le_refl _
  | cons c text ih =>
      have hpos := length_quotedChar_pos c
      rw [List.flatMap_cons, List.length_append, List.length_cons]
      omega

/-- **`readString` inverts the quoting of a whole text**, from behind the opening quote on. -/
theorem readString_quoted (text tail : List Char) :
    readString (text.flatMap quotedChar ++ '"' :: tail) = .ok (text, tail) := by
  refine stringFrom_quoted ?_ tail
  have hle := length_le_flatMap_quotedChar text
  rw [List.length_append]
  omega

/-! ## Digits -/

theorem isDigit_eq (c : Char) : PegTree.isDigit c = c.isDigit := rfl

theorem isDigit_of_mem_toDigits {n : Nat} {c : Char} (h : c ∈ Nat.toDigits 10 n) :
    PegTree.isDigit c = true := by
  rw [isDigit_eq]
  exact Nat.isDigit_of_mem_toDigits (by decide) (by decide) h

theorem isBlank_of_isDigit {c : Char} (hc : PegTree.isDigit c = true) : isBlank c = false := by
  cases hblank : isBlank c with
  | false => rfl
  | true =>
      rcases isBlank_iff.mp hblank with rfl | rfl | rfl | rfl
      all_goals exact absurd hc (by decide)

/-- `digitsValue` inverts `Nat.toDigits 10`. -/
theorem digitsValue_toDigits (n : Nat) : digitsValue (Nat.toDigits 10 n) = n := by
  have hvalue : digitsValue (Nat.toDigits 10 n) = Nat.ofDigitChars 10 (Nat.toDigits 10 n) 0 := by
    simp only [digitsValue, digitValue, Nat.ofDigitChars_eq_foldl, Nat.mul_comm]
  rw [hvalue, Nat.ofDigitChars_toDigits (by decide) (by decide)]

/-- No leading zero, as `wholeDigits` asks, except in `0` itself. -/
theorem head?_toDigits {n : Nat} (hn : 0 < n) : (Nat.toDigits 10 n).head? ≠ some '0' := by
  induction n using Nat.strongRecOn with
  | ind n ih =>
      rw [Nat.toDigits_eq_if (by decide)]
      split
      · next hsmall => interval_cases n <;> decide
      · next hlarge =>
          have hrest := ih (n / 10) (by omega) (by omega)
          rw [List.head?_append]
          cases hhead : (Nat.toDigits 10 (n / 10)).head? with
          | none => exact absurd (List.head?_eq_none_iff.mp hhead) Nat.toDigits_ne_nil
          | some c =>
              rw [hhead] at hrest
              exact hrest

/-! ## The range of numbers -/

theorem roundHalfEven_le (num den : Nat) : roundHalfEven num den ≤ num / den + 1 := by
  unfold roundHalfEven
  dsimp only
  split <;> omega

/-- Rounding to 53 bits at most doubles `n`. -/
theorem nearestWhole_le {n : Nat} (hn : n ≠ 0) : nearestWhole n ≤ 2 * n := by
  show roundHalfEven n (2 ^ (n.log2 + 1 - 53)) * 2 ^ (n.log2 + 1 - 53) ≤ 2 * n
  have hunit : 2 ^ (n.log2 + 1 - 53) ≤ n := by
    calc 2 ^ (n.log2 + 1 - 53) ≤ 2 ^ n.log2 := Nat.pow_le_pow_right (by decide) (by omega)
      _ ≤ n := Nat.log2_self_le hn
  generalize 2 ^ (n.log2 + 1 - 53) = unit at hunit
  -- the quotient is at most one too large, and one more unit is no more than the number itself
  calc roundHalfEven n unit * unit ≤ (n / unit + 1) * unit := Nat.mul_le_mul_right _ (roundHalfEven_le n unit)
    _ = n / unit * unit + unit := Nat.succ_mul _ _
    _ ≤ n + n := Nat.add_le_add (Nat.div_mul_le_self _ _) hunit
    _ = 2 * n := (Nat.two_mul n).symm

theorem le_foldl_digits (digits : List Char) (n : Nat) :
    n ≤ digits.foldl (fun n c => n * 10 + digitValue c) n := by
  induction digits generalizing n with
  | nil => exact Nat.le_refl _
  | cons c digits ih =>
      have hmore := ih (n * 10 + digitValue c)
      rw [List.foldl_cons]
      omega

/-- `addWhole` puts all of `digits` into the coefficient while it stays `≤ greatestWhole`. -/
theorem addWhole_eq {scaled : Scaled} {digits : List Char}
    (h : digits.foldl (fun n c => n * 10 + digitValue c) scaled.coefficient ≤ greatestWhole) :
    scaled.addWhole false digits
      = { scaled with coefficient := digits.foldl (fun n c => n * 10 + digitValue c) scaled.coefficient } := by
  induction digits generalizing scaled with
  | nil => rfl
  | cons c digits ih =>
      have hfits : ¬ greatestWhole < scaled.coefficient * 10 + digitValue c := by
        have hle := le_foldl_digits digits (scaled.coefficient * 10 + digitValue c)
        rw [List.foldl_cons] at h
        omega
      simp only [Scaled.addWhole, Bool.false_or, decide_eq_true_eq, if_neg hfits]
      exact ih h

/-- **Whole numbers up to `greatestWhole` are never `outOfRange`.** -/
theorem outOfRange_whole {digits : List Char} (h : digitsValue digits ≤ greatestWhole) :
    Parts.outOfRange ⟨digits, [], none⟩ = false := by
  have hscaled : Scaled.addWhole false {} digits = ⟨digitsValue digits, 0⟩ := addWhole_eq h
  show Scaled.outOfRange ((Scaled.addWhole false {} digits).addFraction []) = false
  rw [hscaled]
  show Scaled.outOfRange ⟨digitsValue digits, 0⟩ = false
  generalize digitsValue digits = n at h
  by_cases hzero : n = 0
  · subst hzero
    rfl
  · have hproduct : nearestWhole n * nearestWhole (tenPow 0) ≤ 2 * greatestWhole := by
      have hle := nearestWhole_le hzero
      have hone : nearestWhole (tenPow 0) = 1 := rfl
      rw [hone]
      omega
    have hlimit : 2 * greatestWhole < twoPow 1024 - twoPow 970 := by decide +kernel
    have hbelow : ¬ (twoPow 1024 - twoPow 970 ≤ nearestWhole n * nearestWhole (tenPow 0)) :=
      Nat.not_le_of_lt (Nat.lt_of_le_of_lt hproduct hlimit)
    simpa [Scaled.outOfRange, hzero] using hbelow

/-! ## Whole numbers -/

/-- `text` does not continue a number: no digit, `'.'`, `'e'` or `'E'` comes first. -/
def EndsNumber (text : List Char) : Prop :=
  ∀ c, text.head? = some c → PegTree.isDigit c = false ∧ c ≠ '.' ∧ c ≠ 'e' ∧ c ≠ 'E'

theorem spanDigits_append {digits tail : List Char} (hdigits : ∀ c ∈ digits, PegTree.isDigit c = true)
    (htail : EndsNumber tail) : spanDigits (digits ++ tail) = (digits, tail) := by
  have hnone : tail.takeWhile PegTree.isDigit = [] ∧ tail.dropWhile PegTree.isDigit = tail := by
    cases tail with
    | nil => exact ⟨rfl, rfl⟩
    | cons c tail =>
        have hc := (htail c rfl).1
        rw [List.takeWhile_cons, List.dropWhile_cons, hc]
        exact ⟨rfl, rfl⟩
  unfold spanDigits
  rw [List.takeWhile_append_of_pos hdigits, List.dropWhile_append_of_pos hdigits, hnone.1, hnone.2,
    List.append_nil]

theorem someDigits_append {digits tail : List Char} (hne : digits ≠ [])
    (hdigits : ∀ c ∈ digits, PegTree.isDigit c = true) (htail : EndsNumber tail) (atEnd : Fault) :
    someDigits atEnd (digits ++ tail) = .ok (digits, tail) := by
  unfold someDigits
  rw [spanDigits_append hdigits htail]
  cases digits with
  | nil => exact absurd rfl hne
  | cons c digits => rfl

theorem wholeDigits_toDigits (n : Nat) {tail : List Char} (htail : EndsNumber tail) (atEnd : Fault) :
    wholeDigits atEnd (Nat.toDigits 10 n ++ tail) = .ok (Nat.toDigits 10 n, tail) := by
  unfold wholeDigits
  rw [someDigits_append Nat.toDigits_ne_nil (fun _ hc => isDigit_of_mem_toDigits hc) htail]
  dsimp only
  split
  · next c digits hzero =>
      -- a number whose first digit is a zero has no other
      rcases Nat.eq_zero_or_pos n with rfl | hpos
      · cases hzero
      · have hhead := head?_toDigits hpos
        rw [hzero] at hhead
        exact absurd rfl hhead
  · rfl

/-- `readParts` on `Nat.toDigits 10 n` finds no fraction and no exponent, with `EndsNumber` behind it. -/
theorem readParts_toDigits (n : Nat) {tail : List Char} (htail : EndsNumber tail) (atEnd : Fault) :
    readParts atEnd (Nat.toDigits 10 n ++ tail) = .ok (⟨Nat.toDigits 10 n, [], none⟩, tail) := by
  unfold readParts
  rw [wholeDigits_toDigits n htail]
  cases tail with
  | nil => rfl
  | cons c tail =>
      obtain ⟨_, hpoint, hsmall, hcapital⟩ := htail c rfl
      simp [optionalExponent, hpoint, hsmall, hcapital]

theorem exists_cons_toDigits (n : Nat) :
    ∃ c digits, Nat.toDigits 10 n = c :: digits ∧ PegTree.isDigit c = true := by
  cases hdigits : Nat.toDigits 10 n with
  | nil => exact absurd hdigits Nat.toDigits_ne_nil
  | cons c digits =>
      have hmem : c ∈ Nat.toDigits 10 n := by
        rw [hdigits]
        exact List.mem_cons_self
      exact ⟨c, digits, rfl, isDigit_of_mem_toDigits hmem⟩

/-- **`readNumber` inverts `Nat.toDigits 10`** up to `greatestWhole`. -/
theorem readNumber_toDigits {n : Nat} (hn : n ≤ greatestWhole) {tail : List Char} (htail : EndsNumber tail) :
    readNumber (Nat.toDigits 10 n ++ tail) = .ok (.whole n, tail) := by
  have hparts := readParts_toDigits n htail .truncated
  have hvalue := digitsValue_toDigits n
  have hrange : Parts.outOfRange ⟨Nat.toDigits 10 n, [], none⟩ = false :=
    outOfRange_whole (by rw [hvalue]; exact hn)
  have hnumber : Parts.number false ⟨Nat.toDigits 10 n, [], none⟩ = .whole n := by
    simp [Parts.number, hvalue, hn]
  obtain ⟨c, digits, hdigits, hc⟩ := exists_cons_toDigits n
  have hunsigned : c ≠ '-' := by
    rintro rfl
    exact absurd hc (by decide)
  rw [hdigits] at hparts hrange hnumber ⊢
  rw [List.cons_append] at hparts ⊢
  simp [readNumber, hunsigned, hparts, hrange, hnumber]

end PegTree.Json
