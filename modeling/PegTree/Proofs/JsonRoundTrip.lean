import PegTree.Proofs.JsonValues
import PegTree.Proofs.RoseTrees
import PegTree.Snapshot.JsonReader
import PegTree.Snapshot.JsonWriter

/-!
# `Proofs.JsonRoundTrip` — snapshots are read as they are written

Both layouts put blanks between the parts of a JSON text and nothing else (`JsonLayout.Plain`), so the proof is
about every layout of this kind. It follows the writer: every part of a text is read back with anything behind it
(`Reads`). `Fields` says how the members of an object take its reader from one state to another, and
`itemsFrom_item` what one more item of an array does.

* **Spans** (`readSpan_reads`) and **nodes** (`readNode_reads`): a node needs a bracket for itself and one more for
  its span or its children, so a snapshot needs room for twice as many brackets as it has levels.
* `ofJson_written` — reading the text of a snapshot gives the snapshot.
-/

namespace PegTree

/-! ## Levels -/

namespace Rose

variable {α : Type}

mutual
/-- The height of a tree; `1` without children. -/
def levels : Rose α → Nat
  | .node _ ts => levelsList ts + 1
def levelsList : List (Rose α) → Nat
  | [] => 0
  | t :: ts => max (levels t) (levelsList ts)
end

theorem levels_le_of_mem {t : Rose α} {ts : List (Rose α)} (h : t ∈ ts) : t.levels ≤ levelsList ts := by
  induction ts with
  | nil => cases h
  | cons u ts ih =>
      rw [levelsList]
      rcases List.mem_cons.mp h with rfl | hmem
      · exact Nat.le_max_left _ _
      · exact Nat.le_trans (ih hmem) (Nat.le_max_right _ _)

end Rose

namespace Snapshot

open Json
open Text (Span)

/-! ## Layouts -/

/-- **A layout that adds blanks only**, behind colons and at line breaks. -/
structure JsonLayout.Plain (layout : JsonLayout) : Prop where
  colon : ∃ gap, Blanks gap ∧ layout.colon = ':' :: gap
  lineBreak : ∀ depth, Blanks (layout.lineBreak depth)

theorem JsonLayout.plain_compact : JsonLayout.compact.Plain where
  colon := ⟨[], blanks_nil, rfl⟩
  lineBreak _ := blanks_nil

theorem JsonLayout.plain_spread : JsonLayout.spread.Plain where
  colon := ⟨[' '], blanks_nil.cons rfl, rfl⟩
  lineBreak depth := by
    refine Blanks.cons ?_ rfl
    intro c hc
    rw [List.eq_of_mem_replicate hc]
    rfl

/-- The comma before every item but the first. -/
def comma (first : Bool) : List Char :=
  if first then [] else [',']

/-! ## Members -/

/-- **`Fields layout member tail first state text final`**: up to its closing brace, `text` is the members of an
    object, and each takes the state to the `next` as the reader `member state name` does. `final` is the state at
    the brace. -/
inductive Fields {σ : Type} (layout : JsonLayout) (member : σ → List Char → Except Fault (Reader σ))
    (tail : List Char) : (first : Bool) → σ → (text : List Char) → σ → Prop where
  | close {first : Bool} {state : σ} {gap : List Char} (hgap : Blanks gap) :
      Fields layout member tail first state (gap ++ '\x7d' :: tail) state
  | more {first : Bool} {state next final : σ} {value text : List Char} {reader : Reader σ} (depth : Nat)
      (name : String) (hmember : member state name.toList = .ok reader) (hvalue : Reads reader value next text) :
      Fields layout member tail false next text final →
      Fields layout member tail first state (comma first ++ (layout.member depth name value ++ text)) final

section Members

variable {σ : Type} {member : σ → List Char → Except Fault (Reader σ)} {layout : JsonLayout}
  {state final : σ} {first : Bool} {gap text tail : List Char}

theorem nameStart_quote (first : Bool) (hgap : Blanks gap) :
    nameStart first (comma first ++ (gap ++ '"' :: tail)) = .ok (true, tail) := by
  have hquote : skipBlanks (gap ++ '"' :: tail) = '"' :: tail := skipBlanks_gap hgap rfl tail
  cases first with
  | true =>
      show nameStart true (gap ++ '"' :: tail) = _
      unfold nameStart
      rw [hquote]
      rfl
  | false =>
      have hcomma : skipBlanks (',' :: (gap ++ '"' :: tail)) = ',' :: (gap ++ '"' :: tail) :=
        skipBlanks_cons rfl _
      show nameStart false (',' :: (gap ++ '"' :: tail)) = _
      simp only [nameStart, hcomma, hquote]
      rfl

/-- `layout.member` is a line break, the quoted `name`, a colon, blanks and `value`. -/
theorem member_append (hlayout : layout.Plain) (depth : Nat) (name : String) (value tail : List Char) :
    ∃ gap, Blanks gap ∧ layout.member depth name value ++ tail = layout.lineBreak depth
      ++ '"' :: (name.toList.flatMap quotedChar ++ '"' :: ':' :: (gap ++ (value ++ tail))) := by
  obtain ⟨gap, hgap, hcolon⟩ := hlayout.colon
  refine ⟨gap, hgap, ?_⟩
  simp [JsonLayout.member, quoted, hcolon]

theorem afterColon_cons (text : List Char) : afterColon (':' :: text) = .ok text := rfl

/-- `fieldsFrom` on one `layout.member` goes from `state` to `next`. -/
theorem fieldsFrom_member (hlayout : layout.Plain) {fuel depth : Nat} {name : String} {value : List Char}
    {reader : Reader σ} {next : σ} (hmember : member state name.toList = .ok reader)
    (hvalue : Reads reader value next tail) :
    fieldsFrom member (fuel + 1) first state (comma first ++ (layout.member depth name value ++ tail))
      = fieldsFrom member fuel false next tail := by
  obtain ⟨gap, hgap, htext⟩ := member_append hlayout depth name value tail
  simp only [fieldsFrom, htext, nameStart_quote first (hlayout.lineBreak depth), readString_quoted, hmember,
    afterColon_cons, hvalue gap hgap]

theorem fieldsFrom_close {fuel : Nat} (hgap : Blanks gap) :
    fieldsFrom member (fuel + 1) first state (gap ++ '\x7d' :: tail) = .ok (state, tail) := by
  have hclose : nameStart first (gap ++ '\x7d' :: tail) = .ok (false, tail) := by
    unfold nameStart
    rw [skipBlanks_gap hgap rfl]
    rfl
  rw [fieldsFrom, hclose]

/-- **`fieldsFrom` on the text of `Fields` returns `final` and `tail`**, if `fuel` exceeds its length. -/
theorem Fields.fieldsFrom_eq (h : Fields layout member tail first state text final) (hlayout : layout.Plain)
    {fuel : Nat} (hfuel : text.length < fuel) :
    fieldsFrom member fuel first state text = .ok (final, tail) := by
  induction h generalizing fuel with
  | close hgap =>
      obtain ⟨fuel, rfl⟩ := Nat.exists_eq_add_of_lt hfuel
      exact fieldsFrom_close hgap
  | @more first state next final value text reader depth name hmember hvalue _ ih =>
      cases fuel with
      | zero => cases hfuel
      | succ fuel =>
          -- every member has characters of its own, so the fuel lasts
          have hshorter : text.length < fuel := by
            simp only [JsonLayout.member, quoted, List.length_append, List.length_cons] at hfuel
            omega
          rw [fieldsFrom_member hlayout hmember hvalue]
          exact ih hshorter

theorem readBracketed_object {α : Type} {room : Nat} {array object : Reader α} (hroom : 0 < room)
    (hgap : Blanks gap) : readBracketed room array object (gap ++ '\x7b' :: text) = object text := by
  unfold readBracketed
  rw [skipBlanks_gap hgap rfl]
  show (if room = 0 then _ else object text) = _
  rw [if_neg (Nat.ne_of_gt hroom)]

end Members

/-! ## Strings and whole numbers -/

theorem readText_reads (text : String) (tail : List Char) :
    Reads readText (quoted text.toList) text tail := by
  intro gap hgap
  have hquoted : quoted text.toList ++ tail = '"' :: (text.toList.flatMap quotedChar ++ '"' :: tail) := by
    simp [quoted]
  unfold readText
  rw [hquoted, skipBlanks_gap hgap rfl]
  show (readString _).map _ = _
  rw [readString_quoted]
  show Except.ok (String.ofList text.toList, tail) = _
  rw [String.ofList_toList]

theorem readWhole_reads {n : Nat} (hn : n < 2 ^ 64) {tail : List Char} (htail : EndsNumber tail) :
    Reads readWhole (Nat.toDigits 10 n) n tail := by
  intro gap hgap
  have hnumber := readNumber_toDigits (Nat.le_of_lt_succ hn) htail
  obtain ⟨c, digits, hdigits, hc⟩ := exists_cons_toDigits n
  rw [hdigits, List.cons_append] at hnumber ⊢
  unfold readWhole
  rw [skipBlanks_gap hgap (isBlank_of_isDigit hc)]
  dsimp only
  rw [hc, Bool.or_true, if_pos rfl, hnumber]

theorem endsNumber_comma (tail : List Char) : EndsNumber (comma false ++ tail) := by
  rintro _ ⟨⟩
  decide

theorem endsNumber_close {gap : List Char} (hgap : Blanks gap) (tail : List Char) :
    EndsNumber (gap ++ '\x7d' :: tail) := by
  cases gap with
  | nil =>
      rintro _ ⟨⟩
      decide
  | cons c gap =>
      rintro _ ⟨⟩
      rcases isBlank_iff.mp (hgap c List.mem_cons_self) with rfl | rfl | rfl | rfl
      all_goals decide

/-! ## Items -/

section Items

variable {layout : JsonLayout} {item : Reader Snapshot} {depth fuel : Nat} {gap tail : List Char}

theorem JsonLayout.node_eq_cons (layout : JsonLayout) (depth : Nat) (t : Snapshot) :
    ∃ text, layout.node depth t = '\x7b' :: text := by
  obtain ⟨value, ts⟩ := t
  exact ⟨_, rfl⟩

theorem itemStart_brace (first : Bool) (hgap : Blanks gap) :
    itemStart first (comma first ++ (gap ++ '\x7b' :: tail)) = .ok (true, '\x7b' :: tail) := by
  have hbrace : skipBlanks (gap ++ '\x7b' :: tail) = '\x7b' :: tail := skipBlanks_gap hgap rfl tail
  cases first with
  | true =>
      show itemStart true (gap ++ '\x7b' :: tail) = _
      unfold itemStart
      rw [hbrace]
      rfl
  | false =>
      have hcomma : skipBlanks (',' :: (gap ++ '\x7b' :: tail)) = ',' :: (gap ++ '\x7b' :: tail) :=
        skipBlanks_cons rfl _
      show itemStart false (',' :: (gap ++ '\x7b' :: tail)) = _
      simp [itemStart, hcomma, hbrace]

/-- `itemsFrom` on one `layout.node` conses `t`. -/
theorem itemsFrom_item (first : Bool) {t : Snapshot} (hgap : Blanks gap)
    (hitem : Reads item (layout.node depth t) t tail) :
    itemsFrom item (fuel + 1) first (comma first ++ (gap ++ (layout.node depth t ++ tail)))
      = (itemsFrom item fuel false tail).map fun (more, rest) => (t :: more, rest) := by
  have hread := hitem [] blanks_nil
  obtain ⟨text, htext⟩ := layout.node_eq_cons depth t
  rw [htext] at hread ⊢
  simp only [List.cons_append, List.nil_append] at hread ⊢
  rw [itemsFrom, itemStart_brace first hgap]
  dsimp only
  rw [hread]

theorem itemsFrom_close (first : Bool) (hgap : Blanks gap) :
    itemsFrom item (fuel + 1) first (gap ++ ']' :: tail) = .ok ([], tail) := by
  have hclose : itemStart first (gap ++ ']' :: tail) = .ok (false, ']' :: tail) := by
    unfold itemStart
    rw [skipBlanks_gap hgap rfl]
    rfl
  rw [itemsFrom, hclose]
  rfl

theorem JsonLayout.nodes_cons (layout : JsonLayout) (depth : Nat) (t : Snapshot) (ts : List Snapshot)
    (tail : List Char) :
    layout.nodes depth (t :: ts) ++ tail = layout.lineBreak depth ++ (layout.node depth t
      ++ (if ts.isEmpty then tail else comma false ++ (layout.nodes depth ts ++ tail))) := by
  cases ts with
  | nil => simp [JsonLayout.nodes]
  | cons u ts => simp [JsonLayout.nodes, comma]

/-- **`itemsFrom` on `layout.nodes` returns `ts`.** Induction on `ts`, with `itemsFrom_item`. -/
theorem itemsFrom_nodes (hlayout : layout.Plain) (hgap : Blanks gap) {ts : List Snapshot} (hne : ts ≠ [])
    (hitems : ∀ t ∈ ts, ∀ tail, Reads item (layout.node depth t) t tail) (first : Bool)
    (hfuel : ts.length < fuel) :
    itemsFrom item fuel first (comma first ++ (layout.nodes depth ts ++ (gap ++ ']' :: tail)))
      = .ok (ts, tail) := by
  induction ts generalizing first fuel with
  | nil => exact absurd rfl hne
  | cons t ts ih =>
      obtain ⟨hitem, hmore⟩ := List.forall_mem_cons.mp hitems
      cases fuel with
      | zero => cases hfuel
      | succ fuel =>
          rw [List.length_cons, Nat.succ_lt_succ_iff] at hfuel
          rw [JsonLayout.nodes_cons, itemsFrom_item first (hlayout.lineBreak depth) (hitem _)]
          -- only the last node has no comma behind it
          cases ts with
          | nil =>
              obtain ⟨fuel, rfl⟩ := Nat.exists_eq_add_of_lt hfuel
              rw [List.isEmpty_nil, if_pos rfl, itemsFrom_close false hgap]
              rfl
          | cons u ts =>
              rw [List.isEmpty_cons, if_neg Bool.false_ne_true, ih (List.cons_ne_nil u ts) hmore false hfuel]
              rfl

theorem JsonLayout.length_le_nodes (layout : JsonLayout) (depth : Nat) (ts : List Snapshot) :
    ts.length ≤ (layout.nodes depth ts).length := by
  induction ts with
  | nil => exact Nat.zero_le _
  | cons t ts ih =>
      obtain ⟨text, htext⟩ := layout.node_eq_cons depth t
      cases ts with
      | nil =>
          rw [JsonLayout.nodes, htext, List.isEmpty_nil, if_pos rfl]
          simp only [List.length_append, List.length_cons, List.length_nil]
          omega
      | cons u ts =>
          rw [JsonLayout.nodes, htext, List.isEmpty_cons, if_neg Bool.false_ne_true]
          simp only [List.length_append, List.length_cons] at ih ⊢
          omega

/-- **`readChildren` inverts the brackets around `layout.nodes`.** -/
theorem readChildren_reads (hlayout : layout.Plain) (hgap : Blanks gap) {ts : List Snapshot} (hne : ts ≠ [])
    (hitems : ∀ t ∈ ts, ∀ tail, Reads item (layout.node depth t) t tail) {room : Nat} (hroom : 0 < room)
    (tail : List Char) :
    Reads (readChildren room item) ('[' :: (layout.nodes depth ts ++ gap ++ [']'])) ts tail := by
  intro before hbefore
  have htext : '[' :: (layout.nodes depth ts ++ gap ++ [']']) ++ tail
      = '[' :: (comma true ++ (layout.nodes depth ts ++ (gap ++ ']' :: tail))) := by
    simp [comma]
  unfold readChildren
  rw [htext, skipBlanks_gap hbefore rfl]
  show (if room = 0 then _ else itemsFrom item _ true _) = _
  rw [if_neg (Nat.ne_of_gt hroom)]
  refine itemsFrom_nodes hlayout hgap hne hitems true ?_
  have hle := layout.length_le_nodes depth ts
  simp only [List.length_append]
  omega

end Items

/-! ## Spans -/

theorem JsonLayout.span_append (layout : JsonLayout) (depth : Nat) (span : Span) (tail : List Char) :
    layout.span depth span ++ tail = '\x7b' :: (comma true
      ++ (layout.member (depth + 1) "start" (Nat.toDigits 10 span.start) ++ (comma false
        ++ (layout.member (depth + 1) "end" (Nat.toDigits 10 span.stop)
          ++ (layout.lineBreak depth ++ '\x7d' :: tail))))) := by
  simp [JsonLayout.span, comma]

/-- **`readSpan` inverts `layout.span`** for bounds below `2 ^ 64`. -/
theorem readSpan_reads {layout : JsonLayout} (hlayout : layout.Plain) {span : Span}
    (hstart : span.start < 2 ^ 64) (hstop : span.stop < 2 ^ 64) {room : Nat} (hroom : 0 < room) (depth : Nat)
    (tail : List Char) :
    Reads (readSpan room) (layout.span depth span) span tail := by
  intro gap hgap
  have hbreak := hlayout.lineBreak depth
  have hend : Fields layout spanMember tail false (some span.start, none) _ (some span.start, some span.stop) :=
    .more (depth + 1) "end" rfl
      ((readWhole_reads hstop (endsNumber_close hbreak tail)).map fun n => (some span.start, some n))
      (.close hbreak)
  have hfields : Fields layout spanMember tail true (none, none) _ (some span.start, some span.stop) :=
    .more (depth + 1) "start" rfl
      ((readWhole_reads hstart (endsNumber_comma _)).map fun n => (some n, none)) hend
  unfold readSpan
  rw [JsonLayout.span_append, readBracketed_object hroom hgap, spanObject,
    hfields.fieldsFrom_eq hlayout (Nat.lt_succ_self _)]

/-! ## Nodes -/

/-- All spans of the snapshot have bounds below `2 ^ 64`. -/
def Bounded (snapshot : Snapshot) : Prop :=
  ∀ item ∈ snapshot.preorder, item.span.start < 2 ^ 64 ∧ item.span.stop < 2 ^ 64

theorem Bounded.child {item : SnapshotItem} {ts : List Snapshot} (h : Bounded (.node item ts)) {t : Snapshot}
    (ht : t ∈ ts) : Bounded t := by
  intro item' hmem
  exact h item' (List.mem_cons_of_mem _ (Rose.mem_preorderList_iff.mpr ⟨_, ht, hmem⟩))

/-- The text of a node behind its span: the member `children`, if there are any, and the closing brace. -/
def JsonLayout.below (layout : JsonLayout) (depth : Nat) (ts : List Snapshot) (tail : List Char) : List Char :=
  (if ts.isEmpty then []
    else ',' :: layout.member (depth + 1) "children"
      ('[' :: (layout.nodes (depth + 2) ts ++ layout.lineBreak (depth + 1) ++ [']'])))
    ++ (layout.lineBreak depth ++ '\x7d' :: tail)

theorem JsonLayout.node_append (layout : JsonLayout) (depth : Nat) (item : SnapshotItem) (ts : List Snapshot)
    (tail : List Char) :
    layout.node depth (.node item ts) ++ tail = '\x7b' :: (comma true
      ++ (layout.member (depth + 1) "node_type" (quoted item.nodeType.toList) ++ (comma false
        ++ (layout.member (depth + 1) "label" (quoted item.label.toList) ++ (comma false
          ++ (layout.member (depth + 1) "span" (layout.span (depth + 1) item.span)
            ++ layout.below depth ts tail)))))) := by
  simp [JsonLayout.node, JsonLayout.below, comma]


section Nodes

variable {layout : JsonLayout} {span : Reader Span} {children : Reader (List Snapshot)} {depth : Nat}
  {item : SnapshotItem} {ts : List Snapshot} {tail : List Char}

/-- `Fields` of `layout.below`: the children are read, or absent and `getD []` supplies the empty list. -/
theorem fields_below (hlayout : layout.Plain) (hchildren : ts ≠ [] → ∀ tail, Reads children
      ('[' :: (layout.nodes (depth + 2) ts ++ layout.lineBreak (depth + 1) ++ [']'])) ts tail) :
    ∃ below : Option (List Snapshot), below.getD [] = ts ∧
      Fields layout (nodeMember span children) tail false
        ⟨some item.nodeType, some item.label, some item.span, none⟩ (layout.below depth ts tail)
        ⟨some item.nodeType, some item.label, some item.span, below⟩ := by
  have hbreak := hlayout.lineBreak depth
  cases ts with
  | nil => exact ⟨none, rfl, .close hbreak⟩
  | cons t ts =>
      refine ⟨some (t :: ts), rfl, .more (depth + 1) "children" rfl ?_ (.close hbreak)⟩
      exact (hchildren (List.cons_ne_nil t ts) _).map fun ts =>
        Members.mk (some item.nodeType) (some item.label) (some item.span) (some ts)

/-- `readBracketed` on `layout.node` returns the node, given `Reads` for its span and its children. -/
theorem readBracketed_node (hlayout : layout.Plain) {room : Nat} (hroom : 0 < room) (array : Reader Snapshot)
    (hspan : ∀ tail, Reads span (layout.span (depth + 1) item.span) item.span tail)
    (hchildren : ts ≠ [] → ∀ tail, Reads children
      ('[' :: (layout.nodes (depth + 2) ts ++ layout.lineBreak (depth + 1) ++ [']'])) ts tail) :
    Reads (readBracketed room array (nodeObject span children)) (layout.node depth (.node item ts))
      (.node item ts) tail := by
  intro gap hgap
  -- from the last member to the first, since a value is read with what stands behind it
  obtain ⟨below, hbelow, hrest⟩ := @fields_below _ span _ _ item _ tail hlayout hchildren
  have hspanned : Fields layout (nodeMember span children) tail false
      ⟨some item.nodeType, some item.label, none, none⟩ _
      ⟨some item.nodeType, some item.label, some item.span, below⟩ :=
    .more (depth + 1) "span" rfl
      ((hspan _).map fun v => Members.mk (some item.nodeType) (some item.label) (some v) none) hrest
  have hlabelled : Fields layout (nodeMember span children) tail false ⟨some item.nodeType, none, none, none⟩ _
      ⟨some item.nodeType, some item.label, some item.span, below⟩ :=
    .more (depth + 1) "label" rfl
      ((readText_reads item.label _).map fun v => Members.mk (some item.nodeType) (some v) none none) hspanned
  have hfields : Fields layout (nodeMember span children) tail true {} _
      ⟨some item.nodeType, some item.label, some item.span, below⟩ :=
    .more (depth + 1) "node_type" rfl
      ((readText_reads item.nodeType _).map fun v => Members.mk (some v) none none none) hlabelled
  rw [JsonLayout.node_append, readBracketed_object hroom hgap, nodeObject,
    hfields.fieldsFrom_eq hlayout (Nat.lt_succ_self _)]
  show Except.ok (Rose.node item (below.getD []), tail) = _
  rw [hbelow]

end Nodes

/-- **`readNode` inverts `layout.node`**, with `room` for two brackets on each level. Induction on `room`: the
    children have two less. -/
theorem readNode_reads {layout : JsonLayout} (hlayout : layout.Plain) :
    ∀ (room : Nat) {t : Snapshot}, Bounded t → 2 * t.levels ≤ room →
      ∀ depth tail, Reads (readNode room) (layout.node depth t) t tail
  | 0, .node item ts, _, hroom, depth, tail => by
      rw [Rose.levels] at hroom
      omega
  | 1, .node item ts, _, hroom, depth, tail => by
      rw [Rose.levels] at hroom
      omega
  | room + 2, .node item ts, hbounded, hroom, depth, tail => by
      have hbound := hbounded item List.mem_cons_self
      have hitems : ∀ t ∈ ts, ∀ tail, Reads (readNode room) (layout.node (depth + 2) t) t tail := by
        intro t ht tail
        have hlevels := Rose.levels_le_of_mem ht
        rw [Rose.levels] at hroom
        exact readNode_reads hlayout room (hbounded.child ht) (by omega) (depth + 2) tail
      refine readBracketed_node hlayout (Nat.succ_pos _) _ (fun tail => ?_) fun hne tail => ?_
      · exact readSpan_reads hlayout hbound.1 hbound.2 (Nat.succ_pos room) (depth + 1) tail
      · exact readChildren_reads hlayout (hlayout.lineBreak (depth + 1)) hne hitems (Nat.succ_pos room) tail

/-! ## The whole text -/

theorem ofJsonChars_node {layout : JsonLayout} (hlayout : layout.Plain) {snapshot : Snapshot}
    (hbounded : Bounded snapshot) (hlevels : snapshot.levels ≤ 63) :
    ofJsonChars (layout.node 0 snapshot) = .ok snapshot := by
  have hroom : 2 * snapshot.levels ≤ bracketLimit := by
    unfold bracketLimit
    omega
  have hread := readNode_reads hlayout bracketLimit hbounded hroom 0 [] [] blanks_nil
  rw [List.nil_append, List.append_nil] at hread
  unfold ofJsonChars
  rw [hread]
  rfl

/-- **`ofJson` inverts both writers**: for `Bounded` snapshots of at most 63 levels, with any strings, from the
    compact text and from the spread one. -/
theorem ofJson_written {snapshot : Snapshot} (hbounded : Bounded snapshot) (hlevels : snapshot.levels ≤ 63) :
    ofJson (jsonCompact snapshot) = .ok snapshot ∧ ofJson (jsonSpread snapshot) = .ok snapshot := by
  unfold ofJson jsonCompact jsonSpread
  rw [String.toList_ofList, String.toList_ofList]
  exact ⟨ofJsonChars_node JsonLayout.plain_compact hbounded hlevels,
    ofJsonChars_node JsonLayout.plain_spread hbounded hlevels⟩

/-- Escapes of every kind, the largest bound, spans that end before they start, and three levels. -/
def oddSnapshot : Snapshot :=
  .node ⟨"ru\"le", "a\\b\n\x01\u00e9", ⟨18446744073709551615, 0⟩⟩
    [.node ⟨"literal", "\x00\u5b57", ⟨3, 2⟩⟩ [], .node ⟨"", "/", ⟨0, 0⟩⟩ [.node ⟨"rule", "\t", ⟨10, 7⟩⟩ []]]

theorem ofJson_written_oddSnapshot : Bounded oddSnapshot ∧ oddSnapshot.levels = 3 ∧
    ofJson (jsonCompact oddSnapshot) = .ok oddSnapshot ∧ ofJson (jsonSpread oddSnapshot) = .ok oddSnapshot := by
  have hbounded : Bounded oddSnapshot := by
    unfold Bounded
    decide
  have hlevels : oddSnapshot.levels = 3 := rfl
  exact ⟨hbounded, hlevels, ofJson_written hbounded (by rw [hlevels]; decide)⟩

end Snapshot

end PegTree
