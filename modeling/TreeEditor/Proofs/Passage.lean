import TreeEditor.Proofs.Reports

/-!
# What a request passes through

A group of edits is made one edit after the other, and when one of them is refused those before it
are taken back, again one after the other. The editors in between are not seen from outside;
`Editor.passage` lists them, one for every single edit that a request makes, whether it is made for
the first time, undone, redone or taken back. The list is a chain of single edits
(`Editor.isChain_passage`), and it ends with the document and the states that the request leaves
(`Editor.run_restates`).
-/

namespace TreeEditor.Editor

/-! ## Passages -/

/-- The editors after each of some edits that are taken back. -/
def passageBack : List Edit → Editor → List Editor
  | [], _ => []
  | edit :: rest, editor =>
    match editor.revert edit with
    | .ok next => next :: passageBack rest next
    | .error _ => []

/-- The editors after each of some edits that are made and, when one is refused, after each of those
before it that is taken back. -/
def passageEach : (made : List Edit) → List Edit → Editor → List Editor
  | _, [], _ => []
  | made, edit :: rest, editor =>
    match editor.apply edit with
    | .ok next => next :: passageEach (edit :: made) rest next
    | .error (.broken _) => []
    | .error (.refused _) => passageBack made editor

/-- The editors after each single edit of a request. -/
def passage (editor : Editor) : Request → List Editor
  | .command command =>
    match editor.plan command with
    | .ok (edit, _) => passageEach [] [edit] editor
    | .error _ => []
  | .undo =>
    match editor.history.batch, editor.history.done with
    | none, group :: _ => passageEach [] group.undoEdits editor
    | _, _ => []
  | .redo =>
    match editor.history.batch, editor.history.undone with
    | none, group :: _ => passageEach [] group.redoEdits editor
    | _, _ => []
  | .execute group =>
    match editor.history.batch with
    | none => passageEach [] group.redoEdits editor
    | some _ => []
  | .abortBatch =>
    match editor.history.batch with
    | some batch =>
      passageBack batch.edits.reverse
        { editor with history := { editor.history with batch := none } }
    | none => []
  | .beginBatch _ | .endBatch | .setBatchRefresh _ => []

/-- The editors after each single edit of requests that are carried out one after the other. -/
def passageAll : List Request → Editor → List Editor
  | [], _ => []
  | request :: rest, editor => editor.passage request ++ passageAll rest (editor.run request).2

/-! ## Single edits -/

/-- Two editors have the same document and the same states. -/
def Restates (editor later : Editor) : Prop :=
  ∃ journal history, later = { editor with store := { editor.store with journal }, history }

/-- One editor becomes another one by a single edit, whatever was announced and recorded before. -/
def Advances (editor next : Editor) : Prop :=
  ∃ between edit, editor.Restates between ∧ edit.WellFormed ∧ between.apply edit = .ok next

variable {editor between later next : Editor} {edit : Edit} {made edits : List Edit}
  {request : Request}

/-- Every editor has its own document and states. -/
theorem Restates.refl (editor : Editor) : editor.Restates editor :=
  ⟨editor.store.journal, editor.history, rfl⟩

/-- What was announced and recorded in between is of no account. -/
theorem Restates.trans (h : editor.Restates between) (h' : between.Restates later) :
    editor.Restates later := by
  obtain ⟨journal, history, rfl⟩ := h
  obtain ⟨journal', history', rfl⟩ := h'
  exact ⟨journal', history', rfl⟩

/-- Another history leaves the document and the states. -/
theorem restates_history (editor : Editor) (history : History) :
    editor.Restates { editor with history } :=
  ⟨editor.store.journal, history, rfl⟩

/-- Another journal leaves the document and the states. -/
theorem restates_journal (editor : Editor) (journal : Array Event) :
    editor.Restates { editor with store := { editor.store with journal } } :=
  ⟨journal, editor.history, rfl⟩

/-- Announcing a state again leaves the document and the states. -/
theorem restates_refreshAt (refresh : Option Path) (editor : Editor) :
    editor.Restates (editor.refreshAt refresh) := by
  obtain ⟨journal, heq⟩ := refreshAt_eq refresh editor
  exact heq ▸ restates_journal editor journal

/-- Recording an edit leaves the document and the states. -/
theorem restates_recordEdit (edit : Edit) (refresh : Option Path) (editor : Editor) :
    editor.Restates (editor.recordEdit edit refresh) := recordEdit_eq edit refresh editor

/-- Whether the states stand for the document is a matter of the two. -/
theorem Sound.restates (hsound : editor.Sound) (hrestates : editor.Restates between) :
    between.Sound := by
  obtain ⟨journal, history, rfl⟩ := hrestates
  exact (hsound.journal journal).history history

/-- An edit that is taken back is made the other way round. -/
theorem revert_eq_ok : editor.revert edit = .ok next ↔ editor.apply edit.invert = .ok next := by
  unfold revert
  split <;> simp_all

/-! ## Chains of single edits -/

/-- Taking edits back is a chain of single edits. -/
theorem isChain_passageBack (hedits : ∀ edit ∈ edits, edit.WellFormed) :
    (editor :: passageBack edits editor).IsChain Advances := by
  induction edits generalizing editor with
  | nil => exact List.isChain_singleton editor
  | cons edit rest ih =>
    unfold passageBack
    split
    · rename_i next hback
      have hmade : editor.Advances next := ⟨editor, edit.invert, .refl editor,
        (hedits edit List.mem_cons_self).invert, revert_eq_ok.mp hback⟩
      exact List.isChain_cons_cons.mpr
        ⟨hmade, ih fun edit hedit => hedits edit (List.mem_cons_of_mem _ hedit)⟩
    · exact List.isChain_singleton editor

/-- The last editor that taking edits back passes through is the one that it leaves. -/
theorem revertAll_eq_getLastD (edits : List Edit) (editor : Editor) :
    (revertAll edits editor).2 = (passageBack edits editor).getLastD editor := by
  induction edits generalizing editor with
  | nil => rfl
  | cons edit rest ih =>
    unfold revertAll passageBack
    cases editor.revert edit with
    | ok next =>
      dsimp only
      rw [List.getLastD_cons, ih]
    | error failure => rfl

/-- Taking edits back ends with the document and the states that it passes through last, also where
something was recorded before it. -/
theorem revertAll_restates (edits : List Edit) (h : editor.Restates between) :
    Restates ((passageBack edits between).getLastD editor) (revertAll edits between).2 := by
  rw [revertAll_eq_getLastD]
  cases passageBack edits between with
  | nil => exact h
  | cons next rest => exact .refl _

/-- Making edits, and taking back those that were made, is a chain of single edits. -/
theorem isChain_passageEach (hmade : ∀ edit ∈ made, edit.WellFormed)
    (hedits : ∀ edit ∈ edits, edit.WellFormed) :
    (editor :: passageEach made edits editor).IsChain Advances := by
  induction edits generalizing made editor with
  | nil => exact List.isChain_singleton editor
  | cons edit rest ih =>
    obtain ⟨hedit, hrest⟩ := List.forall_mem_cons.mp hedits
    unfold passageEach
    split
    · rename_i next happly
      -- An edit that was made is one that may have to be taken back.
      exact List.isChain_cons_cons.mpr ⟨⟨editor, edit, .refl editor, hedit, happly⟩,
        ih (List.forall_mem_cons.mpr ⟨hedit, hmade⟩) hrest⟩
    · exact List.isChain_singleton editor
    · exact isChain_passageBack hmade

/-- The last editor that making edits passes through is the one that it leaves. -/
theorem applyEach_eq_getLastD (made edits : List Edit) (editor : Editor) :
    (applyEach made edits editor).2 = (passageEach made edits editor).getLastD editor := by
  induction edits generalizing made editor with
  | nil => rfl
  | cons edit rest ih =>
    unfold applyEach passageEach
    cases editor.apply edit with
    | ok next =>
      dsimp only
      rw [List.getLastD_cons, ih]
    | error failure =>
      cases failure with
      | broken breach => rfl
      | refused reason =>
        dsimp only
        rw [← revertAll_eq_getLastD]
        split
        · rename_i after hback
          rw [hback]
        · rfl

/-- Making all of some edits or none ends with the document and the states that it passes through
last. -/
theorem applyAll_restates (edits : List Edit) (editor : Editor) :
    Restates ((passageEach [] edits editor).getLastD editor) (applyAll edits editor).2 := by
  rw [← applyEach_eq_getLastD]
  unfold applyAll
  cases applyEach [] edits editor with
  | mk result after =>
    cases result with
    | ok => exact .refl after
    | error failure => exact restates_journal after editor.store.journal

/-! ## Requests -/

/-- A request that returns leaves the editor of its outcome. -/
theorem eq_of_returned {α : Type} {outcome : Outcome α} {answer : Except Refusal α}
    (h : Outcome.returned outcome = .ok (answer, next)) : outcome.2 = next := by
  obtain ⟨result, left⟩ := outcome
  cases result with
  | ok reply => cases h; rfl
  | error failure => cases failure <;> cases h; rfl

/-- The check of an editor leaves it as it is. -/
theorem checked_snd {α : Type} (answer : α) (editor : Editor) :
    (checked answer editor).2 = editor := by
  unfold checked
  split
  · split <;> rfl
  · rfl

/-- A check leaves the document and the states. -/
theorem restates_checked {α : Type} (answer : α) (h : editor.Restates next) :
    editor.Restates (checked answer next).2 :=
  (checked_snd answer next).symm ▸ h

/-- A request to make a group ends with the document and the states that it passes through last,
whatever is announced and recorded once all edits are made. -/
theorem group_restates {α : Type} (edits : List Edit) (editor : Editor)
    {finish : Editor → Outcome α} (hfinish : ∀ next : Editor, next.Restates (finish next).2) :
    Restates ((passageEach [] edits editor).getLastD editor)
      (match applyAll edits editor with
        | (.error failure, after) => ((.error failure, after) : Outcome α)
        | (.ok (), after) => finish after).2 := by
  have hall := applyAll_restates edits editor
  split <;> rename_i heq <;> rw [heq] at hall
  · exact hall
  · exact hall.trans (hfinish _)

/-- What is announced and recorded after a group leaves the document and the states. -/
theorem restates_finish {α : Type} (answer : α) (refresh : Option Path) (history : History)
    (editor : Editor) :
    editor.Restates (checked answer { editor.refreshAt refresh with history }).2 :=
  restates_checked answer ((restates_refreshAt refresh editor).trans (restates_history _ history))

/-- A command ends with the document and the states that it passes through last. -/
theorem perform_restates (editor : Editor) (command : Command) :
    Restates ((editor.passage (.command command)).getLastD editor) (editor.perform command).2 := by
  cases hplan : editor.plan command with
  | error failure =>
    simp only [passage, perform, hplan]
    exact .refl editor
  | ok planned =>
    obtain ⟨edit, refresh⟩ := planned
    cases happly : editor.apply edit with
    | error failure =>
      simp only [passage, perform, commit, passageEach, hplan, happly]
      cases failure <;> exact .refl editor
    | ok next =>
      simp only [passage, perform, commit, passageEach, hplan, happly]
      have hchecked := restates_checked () (restates_recordEdit edit refresh next)
      split <;> rename_i heq <;> rw [heq] at hchecked <;> exact hchecked

/-- Undoing ends with the document and the states that it passes through last. -/
theorem undo_restates (editor : Editor) :
    Restates ((editor.passage .undo).getLastD editor) editor.undo.2 := by
  cases hbatch : editor.history.batch with
  | some batch =>
    simp only [passage, undo, History.inBatch, hbatch]
    exact .refl editor
  | none =>
    cases hdone : editor.history.done with
    | nil =>
      simp only [passage, undo, History.inBatch, History.popDone, hbatch, hdone]
      exact .refl editor
    | cons group rest =>
      simp only [passage, undo, History.inBatch, History.popDone, hbatch, hdone]
      exact group_restates _ _ fun next => restates_finish true group.refresh _ next

/-- Redoing ends with the document and the states that it passes through last. -/
theorem redo_restates (editor : Editor) :
    Restates ((editor.passage .redo).getLastD editor) editor.redo.2 := by
  cases hbatch : editor.history.batch with
  | some batch =>
    simp only [passage, redo, History.inBatch, hbatch]
    exact .refl editor
  | none =>
    cases hundone : editor.history.undone with
    | nil =>
      simp only [passage, redo, History.inBatch, History.popUndone, hbatch, hundone]
      exact .refl editor
    | cons group rest =>
      simp only [passage, redo, History.inBatch, History.popUndone, hbatch, hundone]
      exact group_restates _ _ fun next => restates_finish true group.refresh _ next

/-- Executing a group ends with the document and the states that it passes through last. -/
theorem execute_restates (editor : Editor) (group : Group) :
    Restates ((editor.passage (.execute group)).getLastD editor) (editor.execute group).2 := by
  cases hbatch : editor.history.batch with
  | some batch =>
    simp only [passage, execute, History.inBatch, hbatch]
    exact .refl editor
  | none =>
    simp only [passage, execute, History.inBatch, hbatch]
    exact group_restates _ _ fun next => restates_finish () group.refresh _ next

/-- Aborting a batch ends with the document and the states that it passes through last. -/
theorem abortBatch_restates (editor : Editor) :
    Restates ((editor.passage .abortBatch).getLastD editor) editor.abortBatch.2 := by
  cases hbatch : editor.history.batch with
  | none =>
    simp only [passage, abortBatch, History.takeBatch, hbatch]
    exact .refl editor
  | some batch =>
    simp only [passage, abortBatch, History.takeBatch, hbatch]
    have hback := revertAll_restates batch.edits.reverse (restates_history editor
      { editor.history with batch := none })
    split <;> rename_i heq <;> rw [heq] at hback
    · exact restates_checked _ hback
    · exact hback

/-- Every request ends with the document and the states that it passes through last. -/
theorem run_restates (editor : Editor) (request : Request) :
    Restates ((editor.passage request).getLastD editor) (editor.run request).2 := by
  cases request with
  | command command => exact perform_restates editor command
  | undo => exact undo_restates editor
  | redo => exact redo_restates editor
  | execute group => exact execute_restates editor group
  | abortBatch => exact abortBatch_restates editor
  -- The others make no edit.
  | beginBatch description =>
    change editor.Restates (beginBatch description editor).2
    unfold beginBatch
    split
    · exact restates_history editor _
    · exact .refl editor
  | endBatch =>
    change editor.Restates (endBatch editor).2
    unfold endBatch
    split
    · exact .refl editor
    · split
      · exact restates_history editor _
      · exact (restates_refreshAt _ editor).trans (restates_history _ _)
  | setBatchRefresh state =>
    change editor.Restates (setBatchRefresh state editor).2
    unfold setBatchRefresh
    split
    · exact .refl editor
    · split
      · exact .refl editor
      · exact restates_history editor _

/-- What comes before a chain of single edits may have been announced and recorded in between. -/
theorem Restates.isChain {passed : List Editor} (h : editor.Restates between)
    (hchain : (between :: passed).IsChain Advances) : (editor :: passed).IsChain Advances := by
  cases passed with
  | nil => exact List.isChain_singleton editor
  | cons next rest =>
    obtain ⟨⟨later, edit, hlater, hedit, happly⟩, hrest⟩ := List.isChain_cons_cons.mp hchain
    exact List.isChain_cons_cons.mpr ⟨⟨later, edit, h.trans hlater, hedit, happly⟩, hrest⟩

/-- Every request is carried out as a chain of single edits. -/
theorem isChain_passage (h : editor.Steady) (hrequest : request.WellFormed) :
    (editor :: editor.passage request).IsChain Advances := by
  have hgroup : ∀ edits, Asks editor request edits →
      (editor :: passageEach [] edits editor).IsChain Advances := fun edits hasks =>
    isChain_passageEach nofun fun edit hedit =>
      (hasks.stems edit hedit).everywhere h.recorded fun _ => h.brings hrequest
  cases request with
  | command command =>
    cases hplan : editor.plan command with
    | error failure =>
      simp only [passage, hplan]
      exact List.isChain_singleton editor
    | ok planned =>
      simp only [passage, hplan]
      exact isChain_passageEach nofun fun edit hedit =>
        List.mem_singleton.mp hedit ▸ h.brings hrequest ⟨planned.2, hplan⟩
  | undo =>
    dsimp only [passage]
    split
    · exact hgroup _ (.undo ‹_› ‹_›)
    · exact List.isChain_singleton editor
  | redo =>
    dsimp only [passage]
    split
    · exact hgroup _ (.redo ‹_› ‹_›)
    · exact List.isChain_singleton editor
  | execute group =>
    dsimp only [passage]
    split
    · exact hgroup _ (.execute ‹_›)
    · exact List.isChain_singleton editor
  | abortBatch =>
    dsimp only [passage]
    split
    · rename_i batch hbatch
      -- The batch is closed before its edits are taken back.
      exact (restates_history editor _).isChain (isChain_passageBack fun edit hedit =>
        h.batch hbatch edit (List.mem_reverse.mp hedit))
    · exact List.isChain_singleton editor
  | beginBatch | endBatch | setBatchRefresh => exact List.isChain_singleton editor

/-! ## Runs -/

section Keeps

/- A condition on the document and the states that a single edit keeps where the editor that it
leaves passes a test. -/
variable {p q : Editor → Prop} (hrestates : ∀ {a b : Editor}, a.Restates b → p a → p b)
  (hstep : ∀ {a b : Editor} {edit : Edit}, p a → edit.WellFormed → a.apply edit = .ok b → q b → p b)
include hrestates hstep

/-- The condition holds at the end of a chain of single edits that all pass the test. -/
theorem keeps_of_isChain {passed : List Editor} (hchain : (editor :: passed).IsChain Advances)
    (hpassed : ∀ next ∈ passed, q next) (hp : p editor) : p (passed.getLastD editor) := by
  induction passed generalizing editor with
  | nil => exact hp
  | cons next rest ih =>
    obtain ⟨⟨between, edit, hbetween, hedit, happly⟩, hrest⟩ := List.isChain_cons_cons.mp hchain
    obtain ⟨hnext, hothers⟩ := List.forall_mem_cons.mp hpassed
    rw [List.getLastD_cons]
    exact ih hrest hothers (hstep (hrestates hbetween hp) hedit happly hnext)

/-- The condition holds at the end of a run whose single edits all pass the test. -/
theorem keeps_of_runAll {requests : List Request} {answers : List (Except Refusal Reply)}
    {last : Editor} (h : editor.Steady) (hrequests : ∀ request ∈ requests, request.WellFormed)
    (hrun : runAll requests editor = .ok (answers, last))
    (hpassed : ∀ next ∈ passageAll requests editor, q next) (hp : p editor) : p last := by
  induction requests generalizing editor answers with
  | nil =>
    cases hrun
    exact hp
  | cons request rest ih =>
    obtain ⟨⟨answer, next⟩, hreturned, hrun⟩ := bind_eq_ok.mp hrun
    obtain ⟨⟨others, end'⟩, hrest, hlast⟩ := bind_eq_ok.mp hrun
    cases hlast
    obtain ⟨hrequest, hothers⟩ := List.forall_mem_cons.mp hrequests
    have hnext : next.Steady := (turn_of_returned h hrequest hreturned).steady h hrequest
      (mapError_ne_broken answer)
    obtain rfl := eq_of_returned hreturned
    obtain ⟨hfirst, hlater⟩ := List.forall_mem_append.mp hpassed
    -- What follows the last single edit of the request only announces and records.
    have hlast := keeps_of_isChain hrestates hstep (isChain_passage h hrequest) hfirst hp
    exact ih hnext hothers hrest hlater (hrestates (run_restates editor request) hlast)

end Keeps

end TreeEditor.Editor
