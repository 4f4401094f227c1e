import Mathlib.Data.List.Forall2
import PegTree.Proofs.QuotedText
import PegTree.Proofs.Traversal
import PegTree.Tree.Outline

/-!
# `Proofs.OutlineShape` — a tree can be read off its outline

An outline has no brackets: what lies below what shows in margins and connectors alone, and labels may hold the same
characters. Three facts make it readable.

* **Labels** (`NodeKind.outline_inj`). A label that is not cut tells the kind of its node, and does not break its line.
* **Margins** (`Rose.split_below`). Lines of neighbouring nodes share a margin, and one column behind it decides: the
  lines that hang there have a dash in it, the lines below them a blank. So the lines below a node end where the next
  dash stands in that column.
* **Line ends** (`endLines_inj`). No line holds a line end, so the text falls into its lines in one way.

`reachable_outline` puts it together for all stores that edits can reach.
-/

namespace PegTree

open Text

/-! ## Labels -/

namespace NodeKind

/-- The name or value has at most `width` characters, so it is not cut. -/
def Uncut (width : Nat) (kind : NodeKind) : Prop :=
  kind.value.toList.length ≤ width

/-- A name without `'\n'`. Values are quoted, so they may contain it. -/
def OneLine : NodeKind → Prop
  | .rule name => '\n' ∉ name.toList
  | .literal _ => True

instance (width : Nat) : DecidablePred (Uncut width) :=
  fun kind => inferInstanceAs (Decidable (kind.value.toList.length ≤ width))

instance : DecidablePred OneLine
  | .rule name => inferInstanceAs (Decidable ('\n' ∉ name.toList))
  | .literal _ => inferInstanceAs (Decidable True)

end NodeKind

theorem shorten_of_le {width : Nat} {text : List Char} (h : text.length ≤ width) : shorten width text = text := by
  unfold shorten
  rw [if_neg (Nat.not_lt.mpr h)]

theorem newline_not_mem_shorten {width : Nat} {text : List Char} (h : '\n' ∉ text) : '\n' ∉ shorten width text := by
  unfold shorten
  split
  · have htake : '\n' ∉ text.take width := fun hmem => h (List.mem_of_mem_take hmem)
    simpa using htake
  · exact h

/-- A label of a `OneLine` kind contains no `'\n'`, cut or not. -/
theorem NodeKind.newline_not_mem_outline {kind : NodeKind} (h : kind.OneLine) (width : Nat) :
    '\n' ∉ kind.outline width := by
  intro hmem
  cases kind with
  | rule name =>
      rcases List.mem_append.mp hmem with hmem | hmem
      · exact absurd hmem (by decide)
      · exact newline_not_mem_shorten h hmem
  | literal value =>
      rcases List.mem_append.mp hmem with hmem | hmem
      · exact absurd hmem (by decide)
      · exact newline_not_mem_quotedChars _ hmem

/-- **A label that is not cut tells the kind**: `outline width` is injective on kinds that are `Uncut width`. -/
theorem NodeKind.outline_inj {width : Nat} {kind kind' : NodeKind} (hkind : kind.Uncut width)
    (hkind' : kind'.Uncut width) (h : kind.outline width = kind'.outline width) : kind = kind' := by
  have hfirst : ∀ name value, outline width (.rule name) ≠ outline width (.literal value) := by
    intro name value heq
    have hhead : some 'r' = some 'l' := congrArg List.head? heq
    exact absurd hhead (by decide)
  cases kind with
  | rule name =>
      cases kind' with
      | rule name' =>
          have hname : shorten width name.toList = shorten width name'.toList := List.append_cancel_left h
          have huncut : name.toList.length ≤ width := hkind
          have huncut' : name'.toList.length ≤ width := hkind'
          rw [shorten_of_le huncut, shorten_of_le huncut'] at hname
          rw [String.toList_inj.mp hname]
      | literal value => exact absurd h (hfirst name value)
  | literal value =>
      cases kind' with
      | rule name => exact absurd h.symm (hfirst name value)
      | literal value' =>
          have hvalue : shorten width value.toList = shorten width value'.toList :=
            quotedChars_injective (List.append_cancel_left h)
          have huncut : value.toList.length ≤ width := hkind
          have huncut' : value'.toList.length ≤ width := hkind'
          rw [shorten_of_le huncut, shorten_of_le huncut'] at hvalue
          rw [String.toList_inj.mp hvalue]

/-! ## Margins -/

namespace Rose

variable {width : Nat} {margin line : List Char} {ts us : List (Rose Visit)}

/-- What hangs a node on its margin. The last of its neighbours has a form of its own. -/
def stem (last : Bool) : Char :=
  if last then '└' else '├'

/-- What the margin goes on with below a node. -/
def rail (last : Bool) : Char :=
  if last then ' ' else '│'

theorem stem_injective {last last' : Bool} (h : stem last = stem last') : last = last' := by
  revert last last'
  decide

/-- `outlineList` of `t :: ts`: the line of `t`, the lines below `t` under a longer margin, the lines of `ts`. -/
theorem outlineList_cons (width : Nat) (margin : List Char) (t : Rose Visit) (ts : List (Rose Visit)) :
    outlineList width margin (t :: ts)
      = (margin ++ stem ts.isEmpty :: '─' :: ' ' :: t.value.entry.kind.outline width)
        :: (outlineList width (margin ++ [rail ts.isEmpty, ' ']) t.children ++ outlineList width margin ts) := by
  obtain ⟨v, below⟩ := t
  cases ts with
  | nil => simp [outlineList, outlineBelow, stem, rail, children]
  | cons u ts => simp [outlineList, outlineBelow, stem, rail, children]

theorem margin_isPrefix (h : line ∈ outlineList width margin ts) : margin <+: line := by
  induction ts using forestInductionOn generalizing margin with
  | nil => cases h
  | cons t ts ihbelow ih =>
      rw [outlineList_cons] at h
      rcases List.mem_cons.mp h with rfl | h
      · exact List.prefix_append _ _
      · rcases List.mem_append.mp h with hbelow | hbeside
        · exact (List.prefix_append margin _).trans (ihbelow hbelow)
        · exact ih hbeside

/-- A line that lies below one of the nodes that hang on `margin`; it has a blank where their own lines have
    `'─'`. -/
def Deeper (margin drawn : List Char) : Prop :=
  drawn[margin.length + 1]? = some ' '

theorem deeper_of_mem {c : Char} (h : line ∈ outlineList width (margin ++ [c, ' ']) ts) : Deeper margin line := by
  obtain ⟨rest, rfl⟩ := margin_isPrefix h
  simp [Deeper]

/-- The first line of `outlineList width margin ts` is not `Deeper margin`. -/
theorem not_deeper_head (h : line ∈ (outlineList width margin ts).head?) : ¬ Deeper margin line := by
  cases ts with
  | nil => cases h
  | cons t ts =>
      rw [outlineList_cons] at h
      cases h
      simp [Deeper]

/-- **The lines below a node end where the lines of its next neighbour begin**: equal concatenations of lines below
    and lines of neighbours have equal parts. -/
theorem split_below {c : Char} {below below' : List (Rose Visit)}
    (h : outlineList width (margin ++ [c, ' ']) below ++ outlineList width margin ts
      = outlineList width (margin ++ [c, ' ']) below' ++ outlineList width margin us) :
    outlineList width (margin ++ [c, ' ']) below = outlineList width (margin ++ [c, ' ']) below' ∧
      outlineList width margin ts = outlineList width margin us :=
  split_unique (fun _ => deeper_of_mem) (fun _ => deeper_of_mem) (fun _ => not_deeper_head)
    (fun _ => not_deeper_head) h

def kinds (view : Rose Visit) : Rose NodeKind :=
  view.map (·.entry.kind)

theorem kinds_node (visit : Visit) (ts : List (Rose Visit)) :
    kinds (.node visit ts) = .node visit.entry.kind (ts.map kinds) :=
  map_node _ _ _

/-- **`outlineList` is injective up to `kinds`**, at any margin, if nothing is cut. -/
theorem kinds_eq_of_outlineList (hts : ∀ visit ∈ preorderList ts, visit.entry.kind.Uncut width)
    (hus : ∀ visit ∈ preorderList us, visit.entry.kind.Uncut width)
    (h : outlineList width margin ts = outlineList width margin us) : ts.map kinds = us.map kinds := by
  -- below a node the margin is longer, so the induction is for all margins
  induction ts using forestInductionOn generalizing us margin with
  | nil =>
      cases us with
      | nil => rfl
      | cons u us =>
          rw [outlineList_cons] at h
          cases h
  | cons t ts ihbelow ih =>
      cases us with
      | nil =>
          rw [outlineList_cons] at h
          cases h
      | cons u us =>
          obtain ⟨v, below⟩ := t
          obtain ⟨v', below'⟩ := u
          simp only [preorderList, preorder, List.cons_append, List.forall_mem_cons, List.forall_mem_append]
            at hts hus
          obtain ⟨hv, hbelow, hts⟩ := hts
          obtain ⟨hv', hbelow', hus⟩ := hus
          rw [outlineList_cons, outlineList_cons] at h
          obtain ⟨hfirst, hrest⟩ := List.cons.inj h
          obtain ⟨hstem, hlabel⟩ := List.cons.inj (List.append_cancel_left hfirst)
          have hlast : ts.isEmpty = us.isEmpty := stem_injective hstem
          have hkind : v.entry.kind = v'.entry.kind :=
            NodeKind.outline_inj hv hv' (List.cons.inj (List.cons.inj hlabel).2).2
          rw [hlast] at hrest
          obtain ⟨hsame, hbeside⟩ := split_below hrest
          have hkinds : below.map kinds = below'.map kinds := ihbelow hbelow hbelow' hsame
          rw [List.map_cons, List.map_cons, ih hts hus hbeside, kinds_node, kinds_node, hkind, hkinds]

theorem kinds_eq_of_outlineLines {view view' : Rose Visit}
    (hview : ∀ visit ∈ view.preorder, visit.entry.kind.Uncut width)
    (hview' : ∀ visit ∈ view'.preorder, visit.entry.kind.Uncut width)
    (h : view.outlineLines width = view'.outlineLines width) : view.kinds = view'.kinds := by
  obtain ⟨v, below⟩ := view
  obtain ⟨v', below'⟩ := view'
  simp only [preorder, List.forall_mem_cons] at hview hview'
  obtain ⟨hlabel, hbelow⟩ := List.cons.inj h
  have hkind : v.entry.kind = v'.entry.kind := NodeKind.outline_inj hview.1 hview'.1 hlabel
  have hkinds : below.map kinds = below'.map kinds := kinds_eq_of_outlineList hview.2 hview'.2 hbelow
  rw [kinds_node, kinds_node, hkind, hkinds]

/-! ## Lines and nodes -/

/-- The characters that margins and connectors are made of. -/
def boxChars : List Char :=
  ['│', '├', '└', '─', ' ']

/-- The line is `kind.outline width` behind a margin of `boxChars`. -/
def Draws (width : Nat) (kind : NodeKind) (line : List Char) : Prop :=
  ∃ margin, margin ⊆ boxChars ∧ line = margin ++ kind.outline width

theorem Draws.newline_not_mem {kind : NodeKind} (h : Draws width kind line) (hkind : kind.OneLine) :
    '\n' ∉ line := by
  obtain ⟨margin, hmargin, rfl⟩ := h
  intro hmem
  rcases List.mem_append.mp hmem with hmem | hmem
  · exact absurd (hmargin hmem) (by decide)
  · exact NodeKind.newline_not_mem_outline hkind width hmem

theorem stem_mem_boxChars (last : Bool) : [stem last, '─', ' '] ⊆ boxChars := by
  revert last
  decide

theorem rail_mem_boxChars (last : Bool) : [rail last, ' '] ⊆ boxChars := by
  revert last
  decide

def DrawsAll (width : Nat) (visits : List Visit) (lines : List (List Char)) : Prop :=
  List.Forall₂ (fun visit line => Draws width visit.entry.kind line) visits lines

/-- **There is a line for every node**, in pre-order. -/
theorem drawsAll_outlineList (hmargin : margin ⊆ boxChars) :
    DrawsAll width (preorderList ts) (outlineList width margin ts) := by
  induction ts using forestInductionOn generalizing margin with
  | nil => exact .nil
  | cons t ts ihbelow ih =>
      obtain ⟨v, below⟩ := t
      have hfirst : Draws width v.entry.kind
          (margin ++ stem ts.isEmpty :: '─' :: ' ' :: v.entry.kind.outline width) := by
        refine ⟨margin ++ [stem ts.isEmpty, '─', ' '], ?_, by simp⟩
        exact List.append_subset.mpr ⟨hmargin, stem_mem_boxChars _⟩
      have hbelow := ihbelow (List.append_subset.mpr ⟨hmargin, rail_mem_boxChars ts.isEmpty⟩)
      rw [outlineList_cons]
      exact .cons hfirst (List.rel_append hbelow (ih hmargin))

theorem drawsAll_outlineLines (view : Rose Visit) (width : Nat) :
    DrawsAll width view.preorder (view.outlineLines width) := by
  obtain ⟨v, below⟩ := view
  have hroot : Draws width v.entry.kind (v.entry.kind.outline width) := ⟨[], List.nil_subset _, rfl⟩
  exact .cons hroot (drawsAll_outlineList (List.nil_subset _))

theorem DrawsAll.newline_not_mem {visits : List Visit} {lines : List (List Char)} (h : DrawsAll width visits lines)
    (hvisits : ∀ visit ∈ visits, visit.entry.kind.OneLine) : ∀ line ∈ lines, '\n' ∉ line := by
  induction h with
  | nil => exact fun _ hline => absurd hline List.not_mem_nil
  | cons hdraws _ ih =>
      obtain ⟨hvisit, hvisits⟩ := List.forall_mem_cons.mp hvisits
      exact List.forall_mem_cons.mpr ⟨hdraws.newline_not_mem hvisit, ih hvisits⟩

end Rose

/-! ## Line ends -/

def endLines (lines : List (List Char)) : String :=
  String.ofList (lines.flatMap (· ++ ['\n']))

/-- **`endLines` is injective** on lines without `'\n'`. -/
theorem endLines_inj {lines lines' : List (List Char)} (hlines : ∀ line ∈ lines, '\n' ∉ line)
    (hlines' : ∀ line ∈ lines', '\n' ∉ line) (h : endLines lines = endLines lines') : lines = lines' := by
  replace h : lines.flatMap (· ++ ['\n']) = lines'.flatMap (· ++ ['\n']) := String.ofList_injective h
  induction lines generalizing lines' with
  | nil =>
      cases lines' with
      | nil => rfl
      | cons line' lines' => simp at h
  | cons line lines ih =>
      cases lines' with
      | nil => simp at h
      | cons line' lines' =>
          simp only [List.flatMap_cons, List.append_assoc, List.singleton_append] at h
          obtain ⟨hline, hmore⟩ := List.forall_mem_cons.mp hlines
          obtain ⟨hline', hmore'⟩ := List.forall_mem_cons.mp hlines'
          obtain ⟨hsame, hrest⟩ := split_at_mark hline hline' h
          rw [hsame, ih hmore hmore' hrest]

/-! ## Every store that edits can reach -/

namespace Tree

variable {tree : Tree}

/-- `P` holds of the kind of every `x` with `Under x 0`. -/
def EachKind (tree : Tree) (P : NodeKind → Prop) : Prop :=
  ∀ x kind, tree.Under x 0 → tree.kind? x = some kind → P kind

/-- Nodes that do not lie under the root count for nothing in `EachKind`, so a property of all entries is enough. -/
theorem eachKind_of_forall {P : NodeKind → Prop} (h : ∀ entry ∈ tree.nodes, P entry.kind) : tree.EachKind P := by
  intro x kind _ hkind
  obtain ⟨entry, hentry, rfl⟩ := Option.map_eq_some_iff.mp hkind
  exact h entry (Array.mem_of_getElem? hentry)

/-- **What stands at a number and below it**: kinds in their places, without numbers and spans. -/
inductive HasShape (tree : Tree) : Rose NodeKind → Nat → Prop where
  | node {kind : NodeKind} {shapes : List (Rose NodeKind)} {x : Nat} (hkind : tree.kind? x = some kind)
      (hbelow : List.Forall₂ (HasShape tree) shapes (tree.children x)) : HasShape tree (.node kind shapes) x

theorem Faithful.hasShape {view : Rose Visit} (h : tree.Faithful view) : tree.HasShape view.kinds view.value.id := by
  induction view using Rose.inductionOn with
  | node v ts ih =>
      have hkind : tree.kind? v.id = some v.entry.kind := kind?_of_get? (h _ .refl).1
      have hchildren : ts.map (·.value.id) = tree.children v.id := h.map_children
      have hbelow : List.Forall₂ tree.HasShape (ts.map Rose.kinds) (ts.map (·.value.id)) := by
        rw [List.forall₂_map_left_iff, List.forall₂_map_right_iff, List.forall₂_same]
        exact fun t ht => ih t ht (h.sub (.child ht .refl))
      rw [hchildren] at hbelow
      rw [Rose.kinds_node]
      exact .node hkind hbelow

theorem Faithful.kind? {view : Rose Visit} (h : tree.Faithful view) :
    ∀ visit ∈ view.preorder, tree.kind? visit.id = some visit.entry.kind :=
  fun _ hvisit => kind?_of_get? (h.get? hvisit)

/-- Every node of a `Faithful` view from `0` is `Under` `0`, so `EachKind P` gives `P` of its kind. -/
theorem EachKind.of_view (hlinked : tree.Linked) {P : NodeKind → Prop} (hkinds : tree.EachKind P) {view : Rose Visit}
    (hroot : view.value.id = 0) (h : tree.Faithful view) : ∀ visit ∈ view.preorder, P visit.entry.kind := by
  intro visit hvisit
  have hunder := h.under hlinked hvisit
  rw [hroot] at hunder
  exact hkinds visit.id visit.entry.kind hunder (h.kind? visit hvisit)

/-- `outline` of a reachable store is `endLines` of the lines of a `Faithful` view from `0`. -/
theorem Reachable.exists_outline (h : Reachable tree) :
    ∃ view : Rose Visit, view.value.id = 0 ∧ tree.Faithful view ∧
      ∀ width, tree.outline width = endLines (view.outlineLines width) := by
  obtain ⟨view, hview, hroot, hfaithful⟩ := h.linked.exists_view h.linked.root.1
  refine ⟨view, hroot, hfaithful, fun width => ?_⟩
  unfold Tree.outline
  rw [hview]
  rfl

/-- **The tree under the root can be read off its outline, in every store that edits can reach**, if no rule name
    contains `'\n'`. At every width the lines of `outline` draw the numbers `x` with `Under x 0`, each once, in the
    order `Precedes`. Equal outlines of two stores in which nothing is cut give one `shape` with `HasShape shape 0`
    in both. -/
theorem reachable_outline (h : Reachable tree) (hnames : tree.EachKind NodeKind.OneLine) :
    (∀ width, ∃ ids lines, tree.outline width = endLines lines ∧ (∀ line ∈ lines, '\n' ∉ line) ∧
      List.Forall₂ (fun id line => ∃ kind, tree.kind? id = some kind ∧ Rose.Draws width kind line) ids lines ∧
      (∀ x, x ∈ ids ↔ tree.Under x 0) ∧ ids.Nodup ∧ ids.Pairwise tree.Precedes) ∧
    ∀ other, Reachable other → other.EachKind NodeKind.OneLine →
      ∀ width, tree.EachKind (NodeKind.Uncut width) → other.EachKind (NodeKind.Uncut width) →
        tree.outline width = other.outline width → ∃ shape, tree.HasShape shape 0 ∧ other.HasShape shape 0 := by
  have hlinked := h.linked
  obtain ⟨view, hroot, hfaithful, houtline⟩ := h.exists_outline
  have hone := hnames.of_view hlinked hroot hfaithful
  constructor
  · intro width
    have hdraws := view.drawsAll_outlineLines width
    have hordered := hfaithful.pairwise_precedes hlinked
    refine ⟨view.ids, view.outlineLines width, houtline width, hdraws.newline_not_mem hone, ?_, ?_,
      hlinked.nodup_of_precedes hordered, hordered⟩
    · have hkinds := (List.forall₂_and_left _ _).mpr ⟨hfaithful.kind?, hdraws⟩
      exact List.forall₂_map_left_iff.mpr (hkinds.imp fun visit _ hline => ⟨visit.entry.kind, hline⟩)
    · intro x
      rw [hfaithful.mem_ids_iff hlinked, hroot]
  · intro other hother hnames' width huncut huncut' heq
    have hlinked' := hother.linked
    obtain ⟨view', hroot', hfaithful', houtline'⟩ := hother.exists_outline
    have hone' := hnames'.of_view hlinked' hroot' hfaithful'
    -- the texts agree, so the lines do, so the kinds that the two views show
    rw [houtline, houtline'] at heq
    have hlines := endLines_inj ((view.drawsAll_outlineLines width).newline_not_mem hone)
      ((view'.drawsAll_outlineLines width).newline_not_mem hone') heq
    have hkinds := Rose.kinds_eq_of_outlineLines (huncut.of_view hlinked hroot hfaithful)
      (huncut'.of_view hlinked' hroot' hfaithful') hlines
    have hshape := hfaithful.hasShape
    have hshape' := hfaithful'.hasShape
    rw [hroot] at hshape
    rw [hroot', ← hkinds] at hshape'
    exact ⟨view.kinds, hshape, hshape'⟩

/-- A call with one argument, whose text looks like a line of an outline. -/
def drawnHistory : List Edit :=
  [.createRule "args", .createLiteral "├─ \"x\"", .addChild 0 1, .addChild 1 2]

/-- The same call, built from below, with a node that is detached again. -/
def drawnHistory' : List Edit :=
  [.createLiteral "├─ \"x\"", .createLiteral "spare", .createRule "args", .addChild 0 2, .addChild 3 1, .addChild 0 3,
    .removeChild 0 2]

theorem reachable_outline_drawn :
    ∃ store other, Reachable store ∧ Reachable other ∧ store.children 0 ≠ other.children 0 ∧
      store.outline 6 = "rule: call\n└─ rule: args\n  └─ literal: \"├─ \\\"x\\\"\"\n" ∧
      store.outline 6 = other.outline 6 ∧ ∃ shape, store.HasShape shape 0 ∧ other.HasShape shape 0 := by
  let store := drawnHistory.foldl apply (Tree.new "call")
  let other := drawnHistory'.foldl apply (Tree.new "call")
  have hstore : Reachable store := (Reachable.new "call").foldl_apply drawnHistory
  have hother : Reachable other := (Reachable.new "call").foldl_apply drawnHistory'
  have houtline : store.outline 6 = other.outline 6 := by decide +kernel
  refine ⟨store, other, hstore, hother, by decide, by decide +kernel, houtline, ?_⟩
  refine (reachable_outline hstore ?_).2 other hother ?_ 6 ?_ ?_ houtline
  all_goals exact eachKind_of_forall (by decide)

end Tree

end PegTree
