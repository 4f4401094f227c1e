import PegTree.Proofs.Coverage
import PegTree.Proofs.LineColumns

/-!
# `Proofs.ByteUnits` — the characters of a text, found by their bytes

An input that is a text has characters for units, and a literal is compared with them one by one. A text can also be
kept as the bytes of its UTF-8 form, with a table that says at which byte every character starts: a unit is then a
slice of bytes, and a literal stands where its bytes stand. `ByteText` is a text kept in this way.

* **The table holds the places between characters** (`byteOffset_ofString`, `isValid_byteOffset`), the end of the
  text included, so no slice cuts through a character.
* **Bytes agree exactly where characters do** (`extract_eq_iff`): the form of no text is a part of the form of
  another unless the text is a beginning of the other.
* **Both inputs answer alike** (`matchLiteral?_ofString`, `unit?_ofString`), and what they answer can be said of the
  list of characters alone (`ofString_refines`).
-/

namespace PegTree

open Text

/-! ## Texts kept in bytes -/

/-- The byte offset of every character of a text that begins at `offset`, and of its end. -/
def offsetsFrom : (offset : Nat) → List Char → List Nat
  | offset, [] => [offset]
  | offset, c :: cs => offset :: offsetsFrom (offset + c.utf8Size) cs

/-- **A text kept in bytes**: `bytes` in UTF-8, and `offsets` of the characters and, last, of the end. -/
structure ByteText where
  bytes : ByteArray
  offsets : List Nat

namespace ByteText

def ofString (source : String) : ByteText :=
  ⟨source.toByteArray, offsetsFrom 0 source.toList⟩

/-- The number of characters; `offsets` has one entry more. -/
def size (text : ByteText) : Nat :=
  text.offsets.length - 1

/-- The byte at which character `pos` starts; `bytes.size` past the end. -/
def byteOffset (text : ByteText) (pos : Nat) : Nat :=
  text.offsets.getD pos text.bytes.size

/-- `some (pos + literal.length)`, if the slice of `bytes` from character `pos` on is the UTF-8 form of
    `literal`. -/
def matchLiteral? (text : ByteText) (pos : Nat) (literal : String) : Option Nat :=
  let start := text.byteOffset pos
  if text.size < pos then none
  else if (text.bytes.extract start (start + literal.utf8ByteSize)).data = literal.toByteArray.data then
    some (pos + literal.length)
  else none

/-- The slice of `bytes` between characters `pos` and `pos + 1`, decoded. -/
def unit? (text : ByteText) (pos : Nat) : Option String :=
  if text.size ≤ pos then none
  else String.fromUTF8? (text.bytes.extract (text.byteOffset pos) (text.byteOffset (pos + 1)))

/-! ## The table -/

theorem length_offsetsFrom (offset : Nat) (cs : List Char) : (offsetsFrom offset cs).length = cs.length + 1 := by
  induction cs generalizing offset with
  | nil => rfl
  | cons c cs ih => rw [offsetsFrom, List.length_cons, ih, List.length_cons]

/-- `offsetsFrom` at `pos` is `offset` and the length in bytes of the first `pos` characters. -/
theorem offsetsFrom_getElem? {offset pos : Nat} {cs : List Char} (hpos : pos ≤ cs.length) :
    (offsetsFrom offset cs)[pos]? = some (offset + utf8Length (cs.take pos)) := by
  induction cs generalizing offset pos with
  | nil =>
      cases Nat.le_zero.mp hpos
      rfl
  | cons c cs ih =>
      cases pos with
      | zero => rfl
      | succ pos =>
          rw [offsetsFrom, List.getElem?_cons_succ, ih (Nat.le_of_succ_le_succ hpos), List.take_succ_cons,
            utf8Length, Nat.add_assoc]

variable (source : String)

@[simp] theorem size_ofString : (ofString source).size = source.toList.length := by
  rw [size, ofString, length_offsetsFrom, Nat.add_sub_cancel]

theorem offsets_ofString {pos : Nat} (hpos : pos ≤ source.toList.length) :
    (ofString source).offsets[pos]? = some (utf8Length (source.toList.take pos)) := by
  rw [ofString, offsetsFrom_getElem? hpos, Nat.zero_add]

theorem byteOffset_ofString (pos : Nat) :
    (ofString source).byteOffset pos = utf8Length (source.toList.take pos) := by
  rw [byteOffset, List.getD_eq_getElem?_getD]
  rcases Nat.lt_or_ge source.toList.length pos with hpast | hpos
  · have hnone : (ofString source).offsets[pos]? = none := by
      rw [List.getElem?_eq_none_iff, ofString, length_offsetsFrom]
      exact hpast
    rw [hnone, List.take_of_length_le (Nat.le_of_lt hpast), utf8Length_toList]
    exact String.size_toByteArray
  · rw [offsets_ofString source hpos]
    rfl

/-- `byteOffset` never falls inside a character. -/
theorem isValid_byteOffset (pos : Nat) : String.Pos.Raw.IsValid source ⟨(ofString source).byteOffset pos⟩ := by
  rw [byteOffset_ofString]
  exact isValid_iff.mpr ⟨_, List.take_prefix _ _, rfl⟩

/-! ## Bytes and characters -/

theorem size_utf8Encode (cs : List Char) : cs.utf8Encode.size = utf8Length cs := by
  rw [← String.toByteArray_ofList, String.size_toByteArray, utf8ByteSize_ofList]

/-- **Slices of UTF-8 compare as characters do**: the slice behind `before` is `literal.utf8Encode` iff
    `literal <+: after`. -/
theorem extract_eq_iff {before after literal : List Char} :
    (before ++ after).utf8Encode.extract (utf8Length before) (utf8Length before + utf8Length literal)
      = literal.utf8Encode ↔ literal <+: after := by
  have hbehind : (before ++ after).utf8Encode.extract (utf8Length before) (utf8Length before + utf8Length literal)
      = after.utf8Encode.extract 0 (utf8Length literal) := by
    have hshift := ByteArray.extract_append_size_add (a := before.utf8Encode) (b := after.utf8Encode)
      (i := 0) (j := utf8Length literal)
    rwa [Nat.add_zero, size_utf8Encode, ← List.utf8Encode_append] at hshift
  rw [hbehind]
  constructor
  · -- with the bytes that are left put behind them, the bytes of the literal are those of `after`
    intro h
    refine List.isPrefix_of_utf8Encode_append_eq_utf8Encode
      (after.utf8Encode.extract (utf8Length literal) after.utf8Encode.size) ?_
    have hfits : utf8Length literal ≤ after.utf8Encode.size := by
      have hsize := congrArg ByteArray.size h
      rw [ByteArray.size_extract, size_utf8Encode literal] at hsize
      omega
    rw [← h, ← ByteArray.extract_eq_extract_append_extract _ (Nat.zero_le _) hfits, ByteArray.extract_zero_size]
  · rintro ⟨rest, rfl⟩
    rw [List.utf8Encode_append]
    exact ByteArray.extract_append_eq_left (size_utf8Encode literal).symm

theorem extract_singleton (before after : List Char) (c : Char) :
    (before ++ c :: after).utf8Encode.extract (utf8Length before) (utf8Length (before ++ [c])) = [c].utf8Encode := by
  rw [utf8Length_append]
  exact extract_eq_iff.mpr ⟨after, rfl⟩

theorem fromUTF8?_utf8Encode (cs : List Char) : String.fromUTF8? cs.utf8Encode = some (String.ofList cs) := by
  rw [String.fromUTF8?, dif_pos ByteArray.isValidUTF8_utf8Encode]
  rfl

end ByteText

/-! ## Both inputs answer alike -/

namespace Input

theorem standsAt_iff {chars : Array Char} {pos : Nat} {value : List Char} :
    standsAt chars pos value = true ↔ value <+: chars.toList.drop pos := by
  induction value generalizing pos with
  | nil => exact iff_of_true rfl List.nil_prefix
  | cons c value ih =>
      rw [standsAt, Bool.and_eq_true, beq_iff_eq, ih]
      constructor
      · rintro ⟨hc, hmore⟩
        obtain ⟨hpos, rfl⟩ := Array.getElem?_eq_some_iff.mp hc
        rw [List.drop_eq_getElem_cons (by simpa using hpos)]
        exact List.cons_prefix_cons.mpr ⟨rfl, hmore⟩
      · rintro ⟨rest, hrest⟩
        have hhead : chars.toList[pos]? = some c := by
          rw [← List.head?_drop, ← hrest]
          rfl
        refine ⟨by simpa using hhead, rest, ?_⟩
        rw [← List.tail_drop, ← hrest]
        rfl

/-- **`matchLiteral?` on bytes is the prefix test on characters**, for `pos` inside the text. -/
theorem matchLiteral?_ofString_eq (source : String) (pos : Nat) (literal : String) :
    (ofString source).matchLiteral? pos literal
      = if pos ≤ source.toList.length ∧ literal.toList <+: source.toList.drop pos then some (pos + literal.length)
        else none := by
  simp only [ofString, matchLiteral?, Bool.and_eq_true, decide_eq_true_eq, standsAt_iff, List.size_toArray,
    String.length_toList]

end Input

namespace ByteText

theorem matchLiteral?_ofString (source : String) (pos : Nat) (literal : String) :
    (ofString source).matchLiteral? pos literal = (Input.ofString source).matchLiteral? pos literal := by
  rw [Input.matchLiteral?_ofString_eq, matchLiteral?]
  simp only [size_ofString, byteOffset_ofString]
  by_cases hpos : pos ≤ source.toList.length
  · have hbytes : (ofString source).bytes
        = (source.toList.take pos ++ source.toList.drop pos).utf8Encode := by
      rw [List.take_append_drop, String.utf8Encode_toList]
      rfl
    rw [if_neg (Nat.not_lt.mpr hpos), hbytes, ← utf8Length_toList literal, ← String.utf8Encode_toList]
    simp only [← ByteArray.ext_iff, extract_eq_iff, hpos, true_and]
  · rw [if_pos (Nat.lt_of_not_le hpos), if_neg (fun h => hpos h.1)]

theorem unit?_ofString (source : String) (pos : Nat) :
    (ofString source).unit? pos = (Input.ofString source).unit? pos := by
  rw [unit?, size_ofString, byteOffset_ofString, byteOffset_ofString, Input.ofString, Input.unit?]
  by_cases hpos : pos < source.toList.length
  · have hbytes : (ofString source).bytes = (source.toList.take pos
        ++ source.toList[pos] :: source.toList.drop (pos + 1)).utf8Encode := by
      rw [← List.drop_eq_getElem_cons hpos, List.take_append_drop, String.utf8Encode_toList]
      rfl
    have htake : source.toList.take (pos + 1) = source.toList.take pos ++ [source.toList[pos]] :=
      List.take_succ_eq_append_getElem hpos
    rw [if_neg (Nat.not_le.mpr hpos), hbytes, htake, extract_singleton, fromUTF8?_utf8Encode]
    simp [hpos]
  · rw [if_pos (Nat.le_of_not_lt hpos)]
    simp [hpos]

end ByteText

/-! ## The whole text -/

namespace Input

/-- **A text is its list of characters.** `size` is their number. `matchLiteral? pos literal = some stop` iff `pos`
    is inside, `stop = pos + literal.length` and `source.toList.extract pos stop = literal.toList`; then `stop` is
    inside. `unit? pos` is the character at `pos`, and `none` iff `pos` is at or past the end. `ByteText` gives the
    same answers, and its offsets are valid positions of `source`. -/
theorem ofString_refines (source : String) (pos : Nat) (literal : String) :
    (Input.ofString source).size = source.toList.length ∧
    (∀ stop, (Input.ofString source).matchLiteral? pos literal = some stop ↔
      pos ≤ source.toList.length ∧ stop = pos + literal.toList.length ∧
        source.toList.extract pos stop = literal.toList) ∧
    (∀ stop, (Input.ofString source).matchLiteral? pos literal = some stop → stop ≤ source.toList.length) ∧
    (Input.ofString source).unit? pos = source.toList[pos]?.map (fun c => String.ofList [c]) ∧
    ((Input.ofString source).unit? pos = none ↔ source.toList.length ≤ pos) ∧
    (ByteText.ofString source).size = (Input.ofString source).size ∧
    (ByteText.ofString source).matchLiteral? pos literal = (Input.ofString source).matchLiteral? pos literal ∧
    (ByteText.ofString source).unit? pos = (Input.ofString source).unit? pos ∧
    String.Pos.Raw.IsValid source ⟨(ByteText.ofString source).byteOffset pos⟩ := by
  have hsize : (Input.ofString source).size = source.toList.length := by simp [ofString, size]
  have hunit : (Input.ofString source).unit? pos = source.toList[pos]?.map (fun c => String.ofList [c]) := by
    simp [ofString, unit?]
  refine ⟨hsize, fun stop => ?_, fun stop hstop => ?_, hunit, ?_, ?_, ByteText.matchLiteral?_ofString _ _ _,
    ByteText.unit?_ofString _ _, ByteText.isValid_byteOffset _ _⟩
  · rw [matchLiteral?_ofString_eq, ← String.length_toList, Option.ite_none_right_eq_some, Option.some.injEq,
      List.prefix_iff_eq_take, List.extract_eq_take_drop, and_assoc]
    constructor
    · rintro ⟨hpos, hstands, rfl⟩
      exact ⟨hpos, rfl, by rw [Nat.add_sub_cancel_left, ← hstands]⟩
    · rintro ⟨hpos, rfl, hstands⟩
      rw [Nat.add_sub_cancel_left] at hstands
      exact ⟨hpos, hstands.symm, rfl⟩
  · exact hsize ▸ (matchLiteral?_bounds hstop).2
  · rw [hunit, Option.map_eq_none_iff, List.getElem?_eq_none_iff]
  · rw [hsize]
    exact ByteText.size_ofString source

end Input

end PegTree
