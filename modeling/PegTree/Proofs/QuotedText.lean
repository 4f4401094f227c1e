import Mathlib.Data.List.Basic
import PegTree.Text.Quoted

/-!
# `Proofs.QuotedText` — text in quotes is on one line and can be told apart

A character between quotes is written as itself, as a short escape or by its code point. Which of the three it is shows
in the first two characters, and each ends where its own form says, so a text can be read off what is written for it.

* `Text.split_unique` — a list has one cut before the first member that fails a test;
* `Text.hex_injective` — different numbers have different digits;
* `Text.Written.append_inj`, `Text.quotedChars_injective` — one character, and from it a whole text;
* `Text.newline_not_mem_quotedChars` — whatever the text, no line ends inside the quotes.
-/

namespace PegTree.Text

/-! ## Cutting a list in two -/

/-- **The cut before the first member without `p` is unique.** -/
theorem split_unique {α : Type} {p : α → Prop} {xs ys rest rest' : List α} (hxs : ∀ x ∈ xs, p x)
    (hys : ∀ y ∈ ys, p y) (hrest : ∀ z ∈ rest.head?, ¬ p z) (hrest' : ∀ z ∈ rest'.head?, ¬ p z)
    (h : xs ++ rest = ys ++ rest') : xs = ys ∧ rest = rest' := by
  induction xs generalizing ys with
  | nil =>
      cases ys with
      | nil => exact ⟨rfl, h⟩
      | cons y ys =>
          -- the rest on the left would begin with a member that passes
          have hhead : rest.head? = some y := congrArg List.head? h
          exact absurd (hys y List.mem_cons_self) (hrest y hhead)
  | cons x xs ih =>
      cases ys with
      | nil =>
          have hhead : rest'.head? = some x := congrArg List.head? h.symm
          exact absurd (hxs x List.mem_cons_self) (hrest' x hhead)
      | cons y ys =>
          obtain ⟨rfl, htail⟩ := List.cons.inj h
          obtain ⟨rfl, hsame⟩ := ih (fun z hz => hxs z (List.mem_cons_of_mem _ hz))
            (fun z hz => hys z (List.mem_cons_of_mem _ hz)) htail
          exact ⟨rfl, hsame⟩

/-- `xs ++ mark :: rest` determines `xs`, if `mark ∉ xs`. -/
theorem split_at_mark {α : Type} {mark : α} {xs ys rest rest' : List α} (hxs : mark ∉ xs) (hys : mark ∉ ys)
    (h : xs ++ mark :: rest = ys ++ mark :: rest') : xs = ys ∧ rest = rest' := by
  have hstop : ∀ rest : List α, ∀ z ∈ (mark :: rest).head?, ¬ z ≠ mark := by
    intro rest z hz
    cases hz
    exact fun hne => hne rfl
  obtain ⟨hsame, hrest⟩ := split_unique (p := (· ≠ mark)) (fun x hx => ne_of_mem_of_not_mem hx hxs)
    (fun y hy => ne_of_mem_of_not_mem hy hys) (hstop rest) (hstop rest') h
  exact ⟨hsame, (List.cons.inj hrest).2⟩

/-! ## Hexadecimal digits -/

/-- The value of hexadecimal `digits`. -/
def hexValue (digits : List Char) : Nat :=
  digits.foldl (fun n c => n * 16 + (hexDigit? c).getD 0) 0

theorem hexDigit?_digitChar {d : Nat} (hd : d < 16) : hexDigit? (Nat.digitChar d) = some d := by
  revert d
  decide

/-- The recursion of `hex`: `n / 16`, and the digit of `n % 16`. -/
theorem hex_of_le {n : Nat} (hn : 16 ≤ n) : hex n = hex (n / 16) ++ [Nat.digitChar (n % 16)] := by
  unfold hex
  rw [Nat.toDigits_eq_if (by decide), if_neg (Nat.not_lt.mpr hn)]

theorem hex_of_lt {n : Nat} (hn : n < 16) : hex n = [Nat.digitChar n] := by
  unfold hex
  rw [Nat.toDigits_eq_if (by decide), if_pos hn]

/-- `hexValue` inverts `hex`, and all of `hex n` are digits. -/
theorem hexValue_hex (n : Nat) : hexValue (hex n) = n ∧ ∀ c ∈ hex n, (hexDigit? c).isSome = true := by
  induction n using Nat.strongRecOn with
  | ind n ih =>
      by_cases hn : n < 16
      · rw [hex_of_lt hn]
        constructor
        · simp [hexValue, hexDigit?_digitChar hn]
        · simp [hexDigit?_digitChar hn]
      · have hlast : n % 16 < 16 := Nat.mod_lt n (by decide)
        obtain ⟨hvalue, hdigits⟩ := ih (n / 16) (by omega)
        rw [hex_of_le (Nat.not_lt.mp hn)]
        constructor
        · unfold hexValue at hvalue ⊢
          rw [List.foldl_append, hvalue, List.foldl_cons, List.foldl_nil, hexDigit?_digitChar hlast, Option.getD_some]
          omega
        · intro c hc
          rcases List.mem_append.mp hc with hc | hc
          · exact hdigits c hc
          · rw [List.mem_singleton.mp hc, hexDigit?_digitChar hlast]
            rfl

theorem hex_injective {m n : Nat} (h : hex m = hex n) : m = n := by
  rw [← (hexValue_hex m).1, h, (hexValue_hex n).1]

theorem not_mem_hex {c : Char} (hc : hexDigit? c = none) (n : Nat) : c ∉ hex n := by
  intro hmem
  have hdigit := (hexValue_hex n).2 c hmem
  rw [hc] at hdigit
  cases hdigit

/-! ## One character -/

/-- The character that the short escape with this `letter` stands for. -/
def unescaped (letter : Char) : Char :=
  if letter = '0' then '\x00'
  else if letter = 't' then '\t'
  else if letter = 'r' then '\r'
  else if letter = 'n' then '\n'
  else letter

/-- **`Written c text`**: the three forms of a character in quotes. `plain` excludes what starts an escape, and
    `short` excludes `'u'`, which starts a `code`. -/
inductive Written : Char → List Char → Prop where
  | plain {c : Char} (hbackslash : c ≠ '\\') (hnewline : c ≠ '\n') : Written c [c]
  | short {c letter : Char} (hstands : unescaped letter = c) (hletter : letter ≠ 'u') (hnewline : letter ≠ '\n') :
      Written c ['\\', letter]
  | code {c : Char} : Written c (codePointEscape c)

theorem written_quotedChar (c : Char) : Written c (quotedChar c) := by
  fun_cases quotedChar c with
  | case7 => exact .code
  | case8 _ _ _ hnewline _ hbackslash => exact .plain hbackslash hnewline
  | case9 => exact .code
  | _ =>
      subst_vars
      exact .short rfl (by decide) (by decide)

/-- **The forms are prefix-free**: `cs ++ rest` determines `c` and `rest`. -/
theorem Written.append_inj {c d : Char} {cs ds rest rest' : List Char} (hc : Written c cs) (hd : Written d ds)
    (h : cs ++ rest = ds ++ rest') : c = d ∧ rest = rest' := by
  -- the first character tells the plain form from the other two, the second one tells these apart
  cases hc with
  | plain hbackslash _ =>
      cases hd with
      | plain _ _ => exact List.cons.inj h
      | short _ _ _ => exact absurd (List.cons.inj h).1 hbackslash
      | code => exact absurd (List.cons.inj h).1 hbackslash
  | short hstands hletter _ =>
      cases hd with
      | plain hbackslash _ => exact absurd (List.cons.inj h).1.symm hbackslash
      | short hstands' _ _ =>
          obtain ⟨rfl, hrest⟩ := List.cons.inj (List.cons.inj h).2
          exact ⟨hstands.symm.trans hstands', hrest⟩
      | code => exact absurd (List.cons.inj (List.cons.inj h).2).1 hletter
  | code =>
      cases hd with
      | plain hbackslash _ => exact absurd (List.cons.inj h).1.symm hbackslash
      | short _ hletter _ => exact absurd (List.cons.inj (List.cons.inj h).2).1.symm hletter
      | code =>
          have hdigits : hex c.toNat ++ '\x7d' :: rest = hex d.toNat ++ '\x7d' :: rest' := by
            simpa [codePointEscape] using h
          have hbrace : hexDigit? '\x7d' = none := by decide
          obtain ⟨hhex, hrest⟩ := split_at_mark (not_mem_hex hbrace _) (not_mem_hex hbrace _) hdigits
          exact ⟨Char.toNat_inj.mp (hex_injective hhex), hrest⟩

theorem Written.newline_not_mem {c : Char} {cs : List Char} (h : Written c cs) : '\n' ∉ cs := by
  cases h with
  | plain _ hnewline => simpa using Ne.symm hnewline
  | short _ _ hnewline => simpa using Ne.symm hnewline
  | code =>
      have hhex : '\n' ∉ hex c.toNat := not_mem_hex (by decide) _
      simpa [codePointEscape] using hhex

theorem Written.ne_nil {c : Char} {cs : List Char} (h : Written c cs) : cs ≠ [] := by
  cases h <;> exact List.cons_ne_nil _ _

/-! ## A whole text -/

theorem flatMap_quotedChar_injective {text text' : List Char}
    (h : text.flatMap quotedChar = text'.flatMap quotedChar) : text = text' := by
  induction text generalizing text' with
  | nil =>
      cases text' with
      | nil => rfl
      | cons d text' => exact absurd (List.append_eq_nil_iff.mp h.symm).1 (written_quotedChar d).ne_nil
  | cons c text ih =>
      cases text' with
      | nil => exact absurd (List.append_eq_nil_iff.mp h).1 (written_quotedChar c).ne_nil
      | cons d text' =>
          obtain ⟨rfl, hrest⟩ := (written_quotedChar c).append_inj (written_quotedChar d) h
          rw [ih hrest]

/-- **`quotedChars` is injective.** -/
theorem quotedChars_injective {text text' : List Char} (h : quotedChars text = quotedChars text') :
    text = text' := by
  unfold quotedChars at h
  have hinside := List.append_cancel_right (List.cons.inj h).2
  exact flatMap_quotedChar_injective hinside

/-- **`'\n' ∉ quotedChars text`**, for every `text`. -/
theorem newline_not_mem_quotedChars (text : List Char) : '\n' ∉ quotedChars text := by
  have hinside : '\n' ∉ text.flatMap quotedChar := by
    intro hmem
    obtain ⟨c, _, hc⟩ := List.mem_flatMap.mp hmem
    exact (written_quotedChar c).newline_not_mem hc
  simpa [quotedChars] using hinside

end PegTree.Text
