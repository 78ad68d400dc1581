import TreeEditor.Editor.Request
import TreeEditor.Proofs.Outcome

/-!
# What an edit does not look at

Making an edit looks neither at the history of an editor nor at its settings, and leaves both as
they are; nor does planning a command. So an editor with another history and other settings makes
the same of an edit (`Editor.apply_withRecord`).
-/

namespace TreeEditor.Editor

variable (editor : Editor) (f : History → History) (g : Settings → Settings)

/-- An editor with another history and other settings. -/
def withRecord : Editor :=
  { editor with history := f editor.history, settings := g editor.settings }

/-! ## Looking up -/

/-- The way up from a state is a matter of the states. -/
theorem pathWithin_withRecord (generations : Nat) (handle : Handle) :
    (editor.withRecord f g).pathWithin generations handle =
      editor.pathWithin generations handle := by
  induction generations generalizing handle with
  | zero => rfl
  | succ generations ih => simp only [pathWithin, ih]; rfl

/-- The path of a state is a matter of the states. -/
theorem pathOf_withRecord (handle : Handle) :
    (editor.withRecord f g).pathOf handle = editor.pathOf handle :=
  pathWithin_withRecord editor f g _ handle

/-- The way along a path is a matter of the states. -/
theorem resolveFrom_withRecord (whole path : Path) (handle : Handle) :
    (editor.withRecord f g).resolveFrom whole handle path =
      editor.resolveFrom whole handle path := by
  induction path generalizing handle with
  | nil => rfl
  | cons step rest ih => simp only [resolveFrom, ih]; rfl

/-- The state at a path is a matter of the states. -/
theorem resolve_withRecord (path : Path) :
    (editor.withRecord f g).resolve path = editor.resolve path :=
  resolveFrom_withRecord editor f g path path editor.root

/-- The state of an owner is a matter of the states. -/
theorem readyOwner_withRecord (path : Path) :
    (editor.withRecord f g).readyOwner path = editor.readyOwner path := by
  simp only [readyOwner, resolve_withRecord]; rfl

/-- The states of the members of a block grow by the grammar. -/
theorem growMembers_withRecord (document : Node) (branch : BranchPath) (owner : Handle)
    (block : Nat) (positions : List Nat) (store : Store) :
    (editor.withRecord f g).growMembers document branch owner block positions store =
      editor.growMembers document branch owner block positions store := by
  induction positions generalizing store with
  | nil => rfl
  | cons position positions ih => simp only [growMembers, ih]; rfl

/-! ## Edits -/

/-- An edit looks neither at the history nor at the settings and leaves both alone. -/
theorem apply_withRecord (edit : Edit) :
    (editor.withRecord f g).apply edit =
      (editor.apply edit).map fun next => next.withRecord f g := by
  change _ = (fun next : Editor => next.withRecord f g) <$> _
  cases edit <;>
    simp only [apply, applyInsert, applyRemove, applyReplace, applyMove, applyAssign, applyUnassign,
      applyInsertBlock, applyRemoveBlock, applySplitBlock, applyMergeBlocks, applyMoveBlock,
      applyChangeReplication, applySetValue, readyOwner_withRecord,
      growMembers_withRecord, map_bind, map_pure,
      apply_ite ((fun next : Editor => next.withRecord f g) <$> ·)] <;>
    rfl

/-- Edits look neither at the history nor at the settings and leave both alone. -/
theorem foldlM_apply_withRecord (edits : List Edit) :
    edits.foldlM apply (editor.withRecord f g) =
      (edits.foldlM apply editor).map fun next => next.withRecord f g := by
  induction edits generalizing editor with
  | nil => rfl
  | cons edit edits ih =>
    rw [List.foldlM_cons, List.foldlM_cons, apply_withRecord]
    cases editor.apply edit with
    | ok next => exact ih next
    | error failure => rfl

/-- Edits leave the history and the settings alone. -/
theorem record_foldlM_apply {editor next : Editor} {edits : List Edit}
    (h : edits.foldlM apply editor = .ok next) :
    next.history = editor.history ∧ next.settings = editor.settings := by
  have hframe := foldlM_apply_withRecord editor (fun _ => editor.history)
    (fun _ => editor.settings) edits
  rw [show editor.withRecord (fun _ => editor.history) (fun _ => editor.settings) = editor from rfl,
    h] at hframe
  rw [show next = next.withRecord (fun _ => editor.history) (fun _ => editor.settings) from
    Except.ok.inj hframe]
  exact ⟨rfl, rfl⟩

/-- An edit leaves the history and the settings alone. -/
theorem record_apply {editor next : Editor} {edit : Edit} (h : editor.apply edit = .ok next) :
    next.history = editor.history ∧ next.settings = editor.settings :=
  have hmade : [edit].foldlM apply editor = .ok next := by rw [List.foldlM_cons, h]; rfl
  record_foldlM_apply hmade

/-! ## Commands -/

/-- A command is planned without a look at the history or the settings. -/
theorem plan_withRecord (command : Command) :
    (editor.withRecord f g).plan command = editor.plan command := by
  cases command <;>
    simp only [plan, planRemove, planReplace, planAssign, planUnassign, optionalOf, blocksOf,
      branchPathOf, pathOf_withRecord] <;>
    rfl

/-! ## Groups -/

/-- An edit is taken back without a look at the history or the settings. -/
theorem revert_withRecord (edit : Edit) : (editor.withRecord f g).revert edit =
    (editor.revert edit).map fun next => next.withRecord f g := by
  unfold revert
  rw [apply_withRecord]
  cases editor.apply edit.invert with
  | ok next => rfl
  | error failure => cases failure <;> rfl

/-- An outcome with another history and other settings. -/
def Outcome.withRecord {α : Type} (outcome : Outcome α) : Outcome α :=
  (outcome.1, outcome.2.withRecord f g)

/-- Edits are taken back without a look at the history or the settings. -/
theorem revertAll_withRecord (edits : List Edit) :
    revertAll edits (editor.withRecord f g) =
      Outcome.withRecord f g (revertAll edits editor) := by
  induction edits generalizing editor with
  | nil => rfl
  | cons edit edits ih =>
    rw [revertAll, revertAll, revert_withRecord]
    cases editor.revert edit with
    | ok next => exact ih next
    | error failure => rfl

/-- Edits are made without a look at the history or the settings. -/
theorem applyEach_withRecord (made edits : List Edit) :
    applyEach made edits (editor.withRecord f g) =
      Outcome.withRecord f g (applyEach made edits editor) := by
  induction edits generalizing editor made with
  | nil => rfl
  | cons edit edits ih =>
    rw [applyEach, applyEach, apply_withRecord]
    cases editor.apply edit with
    | ok next => exact ih next (edit :: made)
    | error failure =>
      cases failure with
      | broken breach => rfl
      | refused reason =>
        dsimp only [Except.map]
        rw [revertAll_withRecord]
        cases revertAll made editor with
        | mk result after => cases result <;> rfl

/-- A group is made without a look at the history or the settings. -/
theorem applyAll_withRecord (edits : List Edit) :
    applyAll edits (editor.withRecord f g) =
      Outcome.withRecord f g (applyAll edits editor) := by
  rw [applyAll, applyAll, applyEach_withRecord]
  cases applyEach [] edits editor with
  | mk result after => cases result <;> rfl

/-- A state is announced again without a look at the history or the settings. -/
theorem refreshAt_withRecord (refresh : Option Path) :
    (editor.withRecord f g).refreshAt refresh =
      (editor.refreshAt refresh).withRecord f g := by
  unfold refreshAt
  cases refresh with
  | none => rfl
  | some path =>
    dsimp only
    rw [resolve_withRecord]
    cases editor.resolve path <;> rfl

end TreeEditor.Editor
