import TreeEditor.Proofs.Atomicity

/-!
# What edits are refused for

An edit is refused for what the states, the document or the grammar say to it. Whether a batch is
open, whether there is something to undo and whether another access is under way are asked before
an edit is made, so no edit is refused on their account (`Editor.ofEdit_of_refused`). A request to
make a group of edits that is answered with such a refusal has therefore not tried any of them.
-/

namespace TreeEditor

/-- The classes of the refusals that edits get. -/
def Category.ofEdit : Category → Bool
  | reentrantMutation | emptyOperationGroup | batchInProgress | noBatch => false
  | _ => true

/-- A refusal that an edit may get. -/
def Refusal.OfEdit (reason : Refusal) : Prop := reason.category.ofEdit = true

/-- A failure is a breakdown or a refusal that an edit may get. -/
def Failure.OfEdit : Failure → Prop
  | refused reason => reason.OfEdit
  | broken _ => True

/-- Whatever fails fails in one sort of ways. -/
def Fails {ε α : Type} (p : ε → Prop) (x : Except ε α) : Prop := ∀ e, x = .error e → p e

namespace Fails

variable {ε α β : Type} {p : ε → Prop}

/-- What goes through does not fail. -/
theorem ok (a : α) : Fails p (.ok a : Except ε α) := nofun

/-- A failure of the sort. -/
theorem error {e : ε} (h : p e) : Fails p (.error e : Except ε α) := by
  rintro _ ⟨⟩
  exact h

/-- A sequence fails as its steps do. -/
theorem bind {x : Except ε α} {f : α → Except ε β} (h : Fails p x) (h' : ∀ a, Fails p (f a)) :
    Fails p (x >>= f) := by
  cases x with
  | ok a => exact h' a
  | error e => exact error (h e rfl)

/-- A condition fails as what it throws and what comes after it. -/
theorem throwIf {q : Prop} [Decidable q] {e : ε} {rest : PUnit → Except ε α} {x : Except ε α}
    (h : p e) (h' : Fails p x) : Fails p (if q then throw e >>= rest else x) := by
  split
  · exact error h
  · exact h'

/-- The last condition fails as what it throws. -/
theorem throwLast {q : Prop} [Decidable q] {e : ε} {a : α} (h : p e) :
    Fails p (if q then throw e else pure a) := by
  split
  · exact error h
  · exact ok a

/-- A loop fails as its steps do. -/
theorem forM {items : List β} {f : β → Except ε PUnit} (h : ∀ b, Fails p (f b)) :
    Fails p (items.forM f) := by
  induction items with
  | nil => exact ok ()
  | cons b rest ih => exact bind (h b) fun _ => ih

/-- A refusal of the sort makes for a failure of the sort. -/
theorem orRefuse {x : Except Refusal α} (h : Fails Refusal.OfEdit x) :
    Fails Failure.OfEdit (orRefuse x) := by
  cases x with
  | ok a => exact ok a
  | error reason => exact error (h reason rfl)

/-- A breakdown is of the sort, and a refusal of the sort stays one. -/
theorem orBreak {x : Except Refusal α} (h : Fails Refusal.OfEdit x) :
    Fails Failure.OfEdit (orBreak x) := by
  cases x with
  | ok a => exact ok a
  | error reason =>
    have hreason := h reason rfl
    cases reason with
    | outOfRange => exact error trivial
    | _ => exact error hreason

/-- The wrong shape of a node is a refusal of the sort. -/
theorem refuseShape (x : Except ShapeError α) : Fails Refusal.OfEdit (refuseShape x) := by
  cases x with
  | ok a => exact ok a
  | error shape => exact error rfl

end Fails

open Refusal (OfEdit)

/-! ## Positions -/

section Positions

variable {α μ : Type} {property : String} {slot : Slot} {block position count : Nat} {delta : Int}

theorem fails_itemAt (items : List α) : Fails OfEdit (itemAt position items) := by
  unfold itemAt
  split
  exacts [.ok _, .error rfl]

theorem fails_checkExisting : Fails OfEdit (checkExisting position count) := by
  unfold checkExisting
  split
  exacts [.ok _, .error rfl]

theorem fails_checkInsertion : Fails OfEdit (checkInsertion position count) := by
  unfold checkInsertion
  split
  exacts [.ok _, .error rfl]

theorem fails_moveTarget : Fails OfEdit (moveTarget position delta count) := by
  unfold moveTarget
  dsimp only
  split
  · split
    exacts [.ok _, .error rfl]
  · exact .error rfl

namespace Blocks

theorem fails_checkSplit (blocks : List (Block α μ)) :
    Fails OfEdit (checkSplit block position blocks) := by
  refine .bind (fails_itemAt blocks) fun content => ?_
  dsimp only
  split
  exacts [.ok _, .error rfl]

theorem fails_checkMerge (blocks : List (Block α μ)) : Fails OfEdit (checkMerge block blocks) := by
  refine .bind (fails_itemAt blocks) fun content => ?_
  split
  exacts [.ok _, .error rfl]

end Blocks

namespace Branch

variable (branch : Branch)

theorem fails_checkSlot : Fails OfEdit (branch.checkSlot property slot) := by
  unfold checkSlot
  split
  · exact .ok _
  · exact .ok _
  · exact fails_checkExisting
  · exact .bind (fails_itemAt _) fun _ => fails_checkExisting
  · exact .error rfl

theorem fails_checkInsert : Fails OfEdit (branch.checkInsert property slot) := by
  unfold checkInsert
  split
  · exact fails_checkInsertion
  · exact .bind (fails_itemAt _) fun _ => fails_checkInsertion
  · exact .error rfl

theorem fails_checkRemove : Fails OfEdit (branch.checkRemove property slot) := by
  unfold checkRemove
  split
  · exact fails_checkExisting
  · exact .bind (fails_itemAt _) fun _ => fails_checkExisting
  · exact .error rfl

theorem fails_checkMove : Fails OfEdit (branch.checkMove property slot delta) := by
  unfold checkMove
  split
  · exact fails_moveTarget
  · exact .bind (fails_itemAt _) fun _ => fails_moveTarget
  · exact .error rfl

theorem fails_blocks : Fails OfEdit (branch.blocks property) := by
  unfold blocks
  split
  exacts [.ok _, .error rfl]

end Branch

end Positions

/-! ## States -/

namespace Store

variable (store : Store) (handle : Handle) (property : String)

theorem fails_expect : Fails Failure.OfEdit (store.expect handle) := by
  unfold expect
  split
  exacts [.ok _, .error trivial]

theorem fails_branch : Fails OfEdit (store.branch handle property) := by
  refine .bind ?_ fun state => ?_
  · unfold live
    split
    · exact .ok _
    · split <;> exact .error rfl
  · split
    exacts [.ok _, .error rfl]

theorem fails_blocks : Fails OfEdit (store.blocks handle property) :=
  .bind (store.fails_branch handle property) fun branch => branch.fails_blocks

end Store

/-! ## The document -/

/-- A path that leads nowhere is refused. -/
theorem Node.fails_descend (node : Node) (path : Path) : Fails OfEdit (node.descend path) := by
  induction path generalizing node with
  | nil => exact .ok _
  | cons step rest ih =>
    refine .bind ?_ ih
    unfold Node.step
    split
    · exact .refuseShape _
    · refine .bind (.refuseShape _) fun optional => ?_
      split
      exacts [.ok _, .error rfl]
    · refine .bind (.refuseShape _) fun list => ?_
      split
      exacts [.ok _, .error rfl]
    · refine .bind (.refuseShape _) fun blocks => ?_
      split
      · exact .error rfl
      · split
        exacts [.ok _, .error rfl]

/-! ## Edits -/

namespace Editor

variable (editor : Editor) (branch : BranchPath)

/-- A path that has no state is refused. -/
theorem fails_resolveFrom (whole : Path) (handle : Handle) (path : Path) :
    Fails OfEdit (editor.resolveFrom whole handle path) := by
  induction path generalizing handle with
  | nil => exact .ok _
  | cons step rest ih =>
    refine .bind (editor.store.fails_branch handle step.property) fun states => ?_
    split
    exacts [ih _, .error rfl]

theorem fails_readyOwner (path : Path) : Fails Failure.OfEdit (editor.readyOwner path) := by
  refine .bind (.orRefuse (editor.fails_resolveFrom path editor.root path)) fun handle => ?_
  refine .bind (editor.store.fails_expect handle) fun state => ?_
  split
  exacts [.ok _, .error rfl]

theorem fails_optionalChild (owner : Handle) (property : String) :
    Fails OfEdit (editor.optionalChild owner property) := by
  refine .bind (editor.store.fails_branch owner property) fun states => ?_
  split
  exacts [.ok _, .error rfl]

theorem fails_checkChild (node : Node) : Fails OfEdit (editor.checkChild branch node) :=
  .bind (editor.document.fails_descend _) fun _ => .bind (.refuseShape _) fun _ => .refuseShape _

theorem fails_checkNode (path : Path) (expected : Node) :
    Fails OfEdit (editor.checkNode path expected) := by
  refine .bind (editor.document.fails_descend path) fun node => ?_
  split
  exacts [.ok _, .error rfl]

theorem fails_checkNotLast (states : Branch) (slot : Slot) :
    Fails OfEdit (checkNotLast states slot) := by
  unfold checkNotLast
  split
  · split
    exacts [.error rfl, .ok _]
  · exact .ok _

theorem fails_blockAt (block : Nat) : Fails Failure.OfEdit (editor.blockAt branch block) :=
  .bind (.orRefuse (.bind (editor.document.fails_descend _) fun _ => .refuseShape _)) fun _ =>
    .orBreak (fails_itemAt _)

/-- What an edit asks first is refused for what the states, the document and the grammar say. -/
theorem fails_conditions (edit : Edit) : Fails Failure.OfEdit (editor.conditions edit) := by
  -- What most edits ask first: the state of the owner, its branch or blocks, and its node.
  have howner := editor.fails_readyOwner
  have hbranch := fun owner property => Fails.orRefuse (editor.store.fails_branch owner property)
  have hblocks := fun owner property => Fails.orRefuse (editor.store.fails_blocks owner property)
  have hnode := fun path => Fails.orRefuse (editor.document.fails_descend path)
  unfold conditions
  cases edit with
  | insert branch slot node =>
    exact .bind (howner _) fun _ => .bind (hbranch _ _) fun states =>
      .bind (.orRefuse states.fails_checkInsert) fun _ =>
        .orRefuse (editor.fails_checkChild branch node)
  | remove branch slot node =>
    exact .bind (howner _) fun _ => .bind (hbranch _ _) fun states =>
      .bind (.orRefuse states.fails_checkRemove) fun _ =>
        .bind (.orRefuse (fails_checkNotLast states slot)) fun _ =>
          .orRefuse (editor.fails_checkNode _ node)
  | replace branch slot before after =>
    refine .bind (howner _) fun _ => .bind (hbranch _ _) fun states =>
      .bind (.orRefuse states.fails_checkSlot) fun _ => .bind ?_ fun current =>
        .bind (editor.store.fails_expect current) fun _ => .throwIf rfl
          (.bind (.orRefuse (editor.fails_checkNode _ before)) fun _ =>
            .orRefuse (editor.fails_checkChild branch after))
    unfold orElseRefuse
    split
    exacts [.ok _, .error rfl]
  | move branch slot delta =>
    exact .bind (howner _) fun _ => .bind (hbranch _ _) fun states =>
      .bind (.orRefuse states.fails_checkMove) fun _ => .ok _
  | assign branch before after =>
    exact .bind (howner _) fun owner => .bind (.orRefuse (editor.fails_optionalChild owner _))
      fun handle => .bind (editor.store.fails_expect handle) fun _ => .throwIf rfl
        (.bind (hnode _) fun _ => .bind (.orRefuse (.refuseShape _)) fun _ => .throwIf rfl
          (.orRefuse (editor.fails_checkChild branch after)))
  | unassign branch item restore =>
    exact .bind (howner _) fun owner => .bind (.orRefuse (editor.fails_optionalChild owner _))
      fun handle => .bind (editor.store.fails_expect handle) fun _ => .throwIf rfl
        (.orRefuse (editor.fails_checkNode _ item))
  | insertBlock branch block content =>
    refine .bind (howner _) fun _ => .bind (hblocks _ _) fun states =>
      .bind (.orRefuse fails_checkInsertion) fun _ => ?_
    dsimp only
    split
    · exact .bind (hnode _) fun _ => .bind (.error rfl) fun _ =>
        .orRefuse (.forM (editor.fails_checkChild branch))
    · exact .orRefuse (.forM (editor.fails_checkChild branch))
  | removeBlock branch block content =>
    exact .bind (howner _) fun _ => .bind (hblocks _ _) fun states =>
      .bind (.orRefuse (fails_itemAt states)) fun _ =>
        .bind (editor.fails_blockAt branch block) fun _ => .throwLast rfl
  | splitBlock branch block position header =>
    exact .bind (howner _) fun _ => .bind (hblocks _ _) fun states =>
      .orRefuse (Blocks.fails_checkSplit states)
  | mergeBlocks branch block position header =>
    exact .bind (howner _) fun _ => .bind (hblocks _ _) fun states =>
      .bind (.orRefuse (Blocks.fails_checkMerge states)) fun _ => .throwIf rfl
        (.bind (editor.fails_blockAt branch (block + 1)) fun _ => .throwLast rfl)
  | moveBlock branch block delta =>
    exact .bind (howner _) fun _ => .bind (hblocks _ _) fun states =>
      .bind (.orRefuse fails_moveTarget) fun _ => .ok _
  | changeReplication branch block before after =>
    exact .bind (howner _) fun _ => .bind (hblocks _ _) fun states =>
      .bind (.orRefuse (fails_itemAt states)) fun _ =>
        .bind (editor.fails_blockAt branch block) fun _ => .throwLast rfl
  | setValue owner property before after =>
    exact .bind (howner _) fun _ => .bind (hnode _) fun _ =>
      .bind (.orRefuse (.refuseShape _)) fun _ => .throwLast rfl

end Editor

/-- An edit of an editor whose states stand for its document is refused for what the states, the
document or the grammar say to it. -/
theorem Editor.ofEdit_of_refused {editor : Editor} (hsound : editor.Sound) {edit : Edit}
    (hedit : edit.WellFormed) {reason : Refusal}
    (hrefused : editor.apply edit = .error (.refused reason)) : reason.OfEdit := by
  obtain ⟨ν, hmirrors⟩ := hsound
  -- An edit is made once its conditions are granted, so the refusal is one of theirs.
  cases hconditions : editor.conditions edit with
  | ok =>
    obtain ⟨next, happly⟩ := apply_of_conditions hmirrors hedit hconditions
    rw [happly] at hrefused
    cases hrefused
  | error failure =>
    have hfails := editor.fails_conditions edit failure hconditions
    rw [editor.guards_apply edit failure hconditions] at hrefused
    cases hrefused
    exact hfails

end TreeEditor
