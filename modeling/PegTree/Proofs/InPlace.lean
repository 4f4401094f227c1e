import PegTree.Tree.Basic

/-!
# `Proofs.InPlace` — runs of the edits

An edit is a program over the store: it looks, refuses, and writes. `edit.on tree` runs one and gives both its answer
and the store behind the answer, so that what a refused edit leaves is not a matter of definition.

* One equation per step: `on_refuseIf_bind`, `on_check_bind`, `on_get_bind`, `on_modify_bind`, `on_forM_modify`.
* **One equation per edit** (`on_addChild`, `on_removeChild`, `on_removeAllChildren`): every answer, in the order in
  which the conditions are looked at, with the store left beside it. `Tree.addChild_eq` and its like drop the store of
  the refused cases.
* **`Editor.Atomic`**: `.error` leaves the store of the start. Refusing and looking keep it (`Atomic.refuseIf`,
  `Atomic.get`) and an answer `.ok` has it for free, so an edit is atomic if every
  `refuseIf` of it stands before its first `modify`.
-/

namespace PegTree

namespace Editor

variable {α : Type} {tree : Tree}

/-! ## Steps -/

/-- `refuseIf` leaves `next` undone when it refuses, and the store as it was. -/
theorem on_refuseIf_bind (condition : Bool) (error : EditError) (next : Unit → Editor α) (tree : Tree) :
    (refuseIf condition error >>= next).on tree
      = if condition then (.error error, tree) else (next ()).on tree := by
  cases condition <;> rfl

theorem on_get_bind (next : Tree → Editor α) (tree : Tree) : (get >>= next).on tree = (next tree).on tree :=
  rfl

theorem on_modify_bind (change : Tree → Tree) (next : Unit → Editor α) (tree : Tree) :
    (modify change >>= next).on tree = (next ()).on (change tree) :=
  rfl

theorem on_modify (change : Tree → Tree) (tree : Tree) :
    on (modify change) tree = (.ok (), change tree) :=
  rfl

theorem on_check_bind (id : Nat) (next : Unit → Editor α) (tree : Tree) :
    (check id >>= next).on tree
      = if (tree.get? id).isNone then (.error (.unknownNode id), tree) else (next ()).on tree := by
  rw [check, bind_assoc, on_get_bind, on_refuseIf_bind]

/-- Writing one place after the other is the fold of the writes. -/
theorem on_forM_modify {β : Type} (xs : List β) (change : β → Tree → Tree) (tree : Tree) :
    on (xs.forM fun x => modify (change x)) tree = (.ok (), xs.foldl (fun t x => change x t) tree) := by
  induction xs generalizing tree with
  | nil => rfl
  | cons x xs ih =>
      calc on ((x :: xs).forM fun x => modify (change x)) tree
          = on (modify (change x) >>= fun _ => xs.forM fun x => modify (change x)) tree := rfl
        _ = on (xs.forM fun x => modify (change x)) (change x tree) := on_modify_bind _ _ _
        _ = (.ok (), xs.foldl (fun t x => change x t) (change x tree)) := ih _

/-! ## Edits that leave no trace when refused -/

/-- `edit`, started in `tree`, leaves `tree` if it answers `.error`. -/
def Atomic (edit : Editor α) (tree : Tree) : Prop :=
  ∀ error left, edit.on tree = (.error error, left) → left = tree

theorem Atomic.of_ok {edit : Editor α} {a : α} {left : Tree} (h : edit.on tree = (.ok a, left)) :
    edit.Atomic tree := by
  intro error left' herror
  cases h.symm.trans herror

theorem Atomic.get {next : Tree → Editor α} (h : (next tree).Atomic tree) : (get >>= next).Atomic tree :=
  h

theorem Atomic.refuseIf {condition : Bool} {error : EditError} {next : Unit → Editor α}
    (h : (next ()).Atomic tree) : (refuseIf condition error >>= next).Atomic tree := by
  intro error' left hleft
  rw [on_refuseIf_bind] at hleft
  split at hleft
  · cases hleft
    rfl
  · exact h _ _ hleft

theorem Atomic.check {id : Nat} {next : Unit → Editor α} (h : (next ()).Atomic tree) :
    (check id >>= next).Atomic tree := by
  intro error left hleft
  rw [on_check_bind] at hleft
  split at hleft
  · cases hleft
    rfl
  · exact h _ _ hleft

/-- `addChild` writes after `check parent`, `check child`, the literal and the cycle. -/
theorem addChild_atomic (parent child : Nat) (tree : Tree) : (addChild parent child).Atomic tree :=
  .check (.check (.get (.refuseIf (.refuseIf (.of_ok rfl)))))

/-- `removeChild` writes after `check parent`, `check child` and the look at the list of `parent`. -/
theorem removeChild_atomic (parent child : Nat) (tree : Tree) : (removeChild parent child).Atomic tree :=
  .check (.check (.get (.refuseIf (.of_ok rfl))))

/-- `removeAllChildren` writes after `check parent`. -/
theorem removeAllChildren_atomic (parent : Nat) (tree : Tree) : (removeAllChildren parent).Atomic tree :=
  .check (.get (.of_ok (on_forM_modify _ _ _)))

/-- `result` is `.ok left` exactly if `left` is the store behind the answer `.ok ()`. -/
theorem result_eq_ok {edit : Editor Unit} {left : Tree} :
    edit.result tree = .ok left ↔ edit.on tree = (.ok (), left) := by
  unfold result
  obtain ⟨answer, left'⟩ := edit.on tree
  cases answer <;> simp [Except.map]

/-- `result` is `.error error` exactly if that is the answer, with whatever store behind it. -/
theorem result_eq_error {edit : Editor Unit} {error : EditError} :
    edit.result tree = .error error ↔ ∃ left, edit.on tree = (.error error, left) := by
  unfold result
  obtain ⟨answer, left⟩ := edit.on tree
  cases answer <;> simp [Except.map]

/-! ## Each edit as one equation -/

/-- **`addChild` in place**: its answer, and the store it leaves. -/
theorem on_addChild (tree : Tree) (parent child : Nat) :
    (addChild parent child).on tree
      = match tree.get? parent, tree.get? child with
        | none, _ => (.error (.unknownNode parent), tree)
        | _, none => (.error (.unknownNode child), tree)
        | some above, some _ =>
          if above.kind.isLiteral then (.error (.literalParent parent), tree)
          else if child = 0 || (tree.ancestors parent).contains child then
            (.error (.cycle parent child), tree)
          else
            (.ok (), ((tree.unlink child).update child fun e => { e with parent := some parent }).update
              parent fun e => { e with children := e.children ++ [child] }) := by
  rw [addChild, on_check_bind, on_check_bind, on_get_bind, on_refuseIf_bind, on_refuseIf_bind]
  cases habove : tree.get? parent with
  | none => rfl
  | some above => cases hbelow : tree.get? child <;> rfl

/-- **`removeChild` in place.** -/
theorem on_removeChild (tree : Tree) (parent child : Nat) :
    (removeChild parent child).on tree
      = match tree.get? parent, tree.get? child with
        | none, _ => (.error (.unknownNode parent), tree)
        | _, none => (.error (.unknownNode child), tree)
        | some above, some _ =>
          if above.children.contains child then
            (.ok (), (tree.update parent fun e => { e with children := e.children.erase child }).update
              child fun e => { e with parent := none })
          else (.error (.notAChild parent child), tree) := by
  rw [removeChild, on_check_bind, on_check_bind, on_get_bind, on_refuseIf_bind]
  cases habove : tree.get? parent with
  | none => rfl
  | some above =>
      cases hbelow : tree.get? child with
      | none => rfl
      | some below =>
          by_cases hmem : above.children.contains child
          · simp only [Option.isNone_some, Option.any_some, hmem, Bool.not_true, Bool.false_eq_true, if_false,
              if_true]
            rfl
          · simp only [Option.isNone_some, Option.any_some, Bool.eq_false_iff.mpr hmem, Bool.not_false,
              Bool.false_eq_true, if_false, if_true]

/-- **`removeAllChildren` in place.** -/
theorem on_removeAllChildren (tree : Tree) (parent : Nat) :
    (removeAllChildren parent).on tree
      = match tree.get? parent with
        | none => (.error (.unknownNode parent), tree)
        | some above =>
          (.ok (), above.children.foldl (fun t c => t.update c fun e => { e with parent := none })
            (tree.update parent fun e => { e with children := [] })) := by
  rw [removeAllChildren, on_check_bind, on_get_bind, on_modify_bind, on_forM_modify]
  cases tree.get? parent <;> rfl

end Editor

namespace Tree

/-! ## The stores that edits make -/

theorem addChild_eq (tree : Tree) (parent child : Nat) :
    tree.addChild parent child
      = match tree.get? parent, tree.get? child with
        | none, _ => .error (.unknownNode parent)
        | _, none => .error (.unknownNode child)
        | some above, some _ =>
          if above.kind.isLiteral then .error (.literalParent parent)
          else if child = 0 || (tree.ancestors parent).contains child then .error (.cycle parent child)
          else
            .ok (((tree.unlink child).update child fun e => { e with parent := some parent }).update
              parent fun e => { e with children := e.children ++ [child] }) := by
  rw [addChild, Editor.result, Editor.on_addChild]
  cases tree.get? parent with
  | none => rfl
  | some above =>
      cases tree.get? child with
      | none => rfl
      | some below =>
          by_cases hliteral : above.kind.isLiteral
          · simp only [if_pos hliteral]
            rfl
          · simp only [if_neg hliteral]
            split <;> rfl

theorem removeChild_eq (tree : Tree) (parent child : Nat) :
    tree.removeChild parent child
      = match tree.get? parent, tree.get? child with
        | none, _ => .error (.unknownNode parent)
        | _, none => .error (.unknownNode child)
        | some above, some _ =>
          if above.children.contains child then
            .ok ((tree.update parent fun e => { e with children := e.children.erase child }).update
              child fun e => { e with parent := none })
          else .error (.notAChild parent child) := by
  rw [removeChild, Editor.result, Editor.on_removeChild]
  cases tree.get? parent with
  | none => rfl
  | some above =>
      cases tree.get? child with
      | none => rfl
      | some below =>
          by_cases hmem : above.children.contains child
          · simp only [if_pos hmem]
            rfl
          · simp only [if_neg hmem]
            rfl

theorem removeAllChildren_eq (tree : Tree) (parent : Nat) :
    tree.removeAllChildren parent
      = match tree.get? parent with
        | none => .error (.unknownNode parent)
        | some above =>
          .ok (above.children.foldl (fun t c => t.update c fun e => { e with parent := none })
            (tree.update parent fun e => { e with children := [] })) := by
  rw [removeAllChildren, Editor.result, Editor.on_removeAllChildren]
  cases tree.get? parent <;> rfl

end Tree

end PegTree
