import TreeEditor.Proofs.Runs

/-!
# Batches as groups

A batch is made one command at a time: each is planned from handles, made and announced at once. A
group that was built elsewhere is made from edits that are already there, and what it announces is
kept back until all of them are made. For the edits that a batch has recorded both come to the same
(`Editor.execute_of_batch`), down to the handles of new states and the order of what is announced.

The reason is that making an edit looks at nothing that a batch changes. So throughout the batch the
editor is what making the recorded edits, one after the other, makes of the editor before the batch,
but for the batch that it carries (`Editor.Batching`).
-/

namespace TreeEditor

/-- Requests that can stand inside a batch: commands, and naming the state to be announced again. -/
def Request.Batched : Request → Prop
  | .command _ | .setBatchRefresh _ => True
  | _ => False

instance : DecidablePred Request.Batched
  | .command _ | .setBatchRefresh _ => isTrue trivial
  | .undo | .redo | .beginBatch _ | .endBatch | .abortBatch | .execute _ => isFalse id

namespace Editor

variable {editor between next : Editor} {batch : Batch} {request : Request}
  {result : Except Failure Reply}

/-- An editor with an open batch is what the edits of the batch have made of the editor before. -/
structure Batching (editor : Editor) (batch : Batch) (between : Editor) : Prop where
  collected : ∃ made, batch.edits.foldlM apply editor = .ok made ∧
    between = made.withRecord (fun history => { history with batch := some batch }) id
  wellFormed : ∀ edit ∈ batch.edits, edit.WellFormed

/-- The batch that is carried is the one of which the edits were made. -/
theorem Batching.carries (h : editor.Batching batch between) :
    between.history.batch = some batch := by
  obtain ⟨made, -, rfl⟩ := h.collected
  rfl

/-- A batch that was just opened has no edits. -/
theorem batching_begin (description : Option String) (editor : Editor) :
    editor.Batching ⟨[], none, description⟩
      { editor with history := { editor.history with batch := some ⟨[], none, description⟩ } } :=
  ⟨⟨editor, rfl, rfl⟩, fun _ hedit => nomatch hedit⟩

/-- An edit that is made inside a batch adds to what the batch has made. -/
theorem Batching.commit (h : editor.Batching batch between) {edit : Edit} (hedit : edit.WellFormed)
    (refresh : Option Path) (hmade : between.apply edit = .ok next) :
    editor.Batching (batch.record edit refresh) (next.recordEdit edit refresh) := by
  obtain ⟨made, hcollected, rfl⟩ := h.collected
  -- An edit looks at no history, so it is made as it would be without the batch.
  rw [apply_withRecord] at hmade
  cases happly : made.apply edit with
  | error failure => rw [happly] at hmade; cases hmade
  | ok more =>
    rw [happly] at hmade
    cases hmade
    refine ⟨⟨more, ?_, rfl⟩, fun other hother => ?_⟩
    · rw [Batch.record, List.foldlM_append, hcollected, ok_bind, List.foldlM_cons, happly]
      rfl
    · rcases List.mem_append.mp hother with hold | hnew
      · exact h.wellFormed other hold
      · rw [List.mem_singleton.mp hnew]
        exact hedit

/-- Naming a state to be announced again makes no edit. -/
theorem Batching.refresh (h : editor.Batching batch between) (path : Option Path) :
    editor.Batching { batch with refresh := path } { between with history :=
      { between.history with batch := some { batch with refresh := path } } } := by
  obtain ⟨made, hcollected, rfl⟩ := h.collected
  exact ⟨⟨made, hcollected, rfl⟩, h.wellFormed⟩

/-- A request inside a batch is answered, and the editor goes on carrying the batch. -/
theorem Batching.step (h : editor.Batching batch between) (hsteady : between.Steady)
    (hrequest : request.WellFormed) (hbatched : request.Batched) :
    ∃ answer after later, Outcome.returned (between.run request) = .ok (answer, after) ∧
      editor.Batching later after ∧ later.description = batch.description := by
  have turn := run_turn hsteady hrequest
  have hopened := h.carries
  generalize hresult : (between.run request).1 = result at turn
  generalize hafter : (between.run request).2 = after at turn
  have hrun : between.run request = (result, after) := Prod.ext hresult hafter
  rw [hrun]
  -- Commands and names are all that is asked inside a batch; the other turns answer other requests.
  cases turn with
  | @refused _ reason => exact ⟨.error reason, _, batch, rfl, h, rfl⟩
  | @committed command edit refresh made hplanned hmade =>
    have hedit : edit.WellFormed := hsteady.brings hrequest ⟨refresh, hplanned⟩
    exact ⟨.ok _, _, _, rfl, h.commit hedit refresh hmade, rfl⟩
  | noState => exact ⟨.error _, _, batch, rfl, h, rfl⟩
  | @named _ other path hother =>
    obtain rfl : other = batch := Option.some.inj (hother.symm.trans hopened)
    exact ⟨.ok .done, _, _, rfl, h.refresh (some path), rfl⟩
  | noBatch hclosed => rw [hopened] at hclosed; cases hclosed
  | batchOpen _ hkind => rcases hkind with rfl | rfl | ⟨_, rfl⟩ | ⟨_, rfl⟩ <;> exact hbatched.elim
  | idle _ hkind => rcases hkind with ⟨rfl, _⟩ | ⟨rfl, _⟩ <;> exact hbatched.elim
  | failed hasks => cases hasks <;> exact hbatched.elim
  | _ => exact hbatched.elim

/-- Requests inside a batch are answered one after the other, and the editor goes on carrying the
batch. -/
theorem Batching.runAll {requests : List Request} (h : editor.Batching batch between)
    (hsteady : between.Steady) (hrequests : ∀ request ∈ requests, request.WellFormed)
    (hbatched : ∀ request ∈ requests, request.Batched) :
    ∃ answers after later, runAll requests between = .ok (answers, after) ∧
      editor.Batching later after ∧ later.description = batch.description := by
  induction requests generalizing between batch with
  | nil => exact ⟨[], between, batch, rfl, h, rfl⟩
  | cons request rest ih =>
    have hrequest := hrequests request List.mem_cons_self
    obtain ⟨answer, after, later, hreturned, hlater, hdescription⟩ :=
      h.step hsteady hrequest (hbatched request List.mem_cons_self)
    have hafter : after.Steady := (turn_of_returned hsteady hrequest hreturned).steady hsteady
      hrequest (mapError_ne_broken answer)
    obtain ⟨answers, last, final, hrest, hfinal, hsame⟩ :=
      ih hlater hafter (fun r hr => hrequests r (List.mem_cons_of_mem _ hr))
        fun r hr => hbatched r (List.mem_cons_of_mem _ hr)
    refine ⟨answer :: answers, last, final, ?_, hfinal, hsame.trans hdescription⟩
    rw [Editor.runAll, hreturned, ok_bind]
    dsimp only
    rw [hrest]
    rfl

/-- What the end of a batch leaves is what making its group leaves. -/
theorem Batching.endBatch (h : editor.Batching batch between) (hsound : editor.Sound)
    (hclosed : editor.history.batch = none) {group : Group} (hgroup : batch.group? = some group) :
    ∃ last, between.endBatch = (.ok true, last) ∧ editor.execute group = (.ok (), last) := by
  obtain ⟨made, hcollected, rfl⟩ := h.collected
  obtain ⟨hhistory, -⟩ := record_foldlM_apply hcollected
  have hedits : group.edits = batch.edits := by
    unfold Batch.group? Group.ofList? at hgroup
    split at hgroup
    · cases hgroup
    · cases hgroup
      rfl
  -- The group is pushed onto the history as it was before the batch.
  let last : Editor := { made.refreshAt group.refresh with history := editor.history.push group }
  have hunbatched : { editor.history with batch := none } = editor.history := by rw [← hclosed]
  refine ⟨last, ?_, ?_⟩
  · have hend : (made.withRecord (fun history => { history with batch := some batch }) id).endBatch
        = (.ok true, { (made.withRecord (fun history => { history with batch := some batch })
            id).refreshAt group.refresh with
              history := { made.history with batch := none }.push group }) := by
      rw [Editor.endBatch, History.takeBatch]
      dsimp only [withRecord]
      rw [hgroup]
    rw [hend, refreshAt_withRecord, hhistory, hunbatched]
    rfl
  · -- The group is checked once more at the end, and the check finds nothing.
    have hinBatch : editor.history.inBatch = false := by rw [History.inBatch, hclosed]; rfl
    have hmade : applyAll group.redoEdits editor = (.ok (), made) :=
      applyAll_of_ok (by rw [Group.redoEdits, hedits]; exact hcollected)
    have hlast : last.Sound :=
      hsound.finish (fun edit hedit => h.wellFormed edit (hedits ▸ hedit))
        (by rw [hedits]; exact hcollected) (editor.history.push group)
    rw [execute, hinBatch, if_neg Bool.false_ne_true, hmade]
    dsimp only
    rw [history_refreshAt, hhistory]
    exact checked_eq hlast ()

/-- A batch that is ended leaves the editor as making the group of its edits at once would have left
it: the same document, states, register and history, and the same events announced in the same
order. The commands of the batch are all answered, and so is the request to make the group. -/
theorem execute_of_batch {requests : List Request} (h : editor.Reachable)
    (hclosed : editor.history.batch = none) (description : Option String)
    (hrequests : ∀ request ∈ requests, request.WellFormed ∧ request.Batched) :
    ∃ answers between batch,
      runAll (.beginBatch description :: requests) editor = .ok (answers, between) ∧
      between.history.batch = some batch ∧
      ∀ hrecorded : batch.edits ≠ [], ∃ last, between.endBatch = (.ok true, last) ∧
        editor.execute ⟨batch.edits, hrecorded, batch.refresh, description⟩ = (.ok (), last) := by
  have hsteady := h.steady
  let opened : Editor :=
    { editor with history := { editor.history with batch := some ⟨[], none, description⟩ } }
  have hbegin : Outcome.returned (editor.run (.beginBatch description)) =
      .ok (.ok .done, opened) := by
    rw [run, beginBatch, History.beginBatch, hclosed]
    rfl
  -- Opening the batch is a turn of its own, after which the editor is steady again.
  have hbeginWell : (Request.beginBatch description).WellFormed := fun _ hnode => nomatch hnode
  have hopened : opened.Steady := (turn_of_returned hsteady hbeginWell hbegin).steady hsteady
    hbeginWell (mapError_ne_broken _)
  obtain ⟨answers, between, batch, hrun, hbatching, hdescription⟩ :=
    (batching_begin description editor).runAll hopened (fun r hr => (hrequests r hr).1)
      fun r hr => (hrequests r hr).2
  refine ⟨.ok .done :: answers, between, batch, ?_, hbatching.carries, fun hrecorded => ?_⟩
  · rw [runAll, hbegin, ok_bind]
    dsimp only
    rw [hrun]
    rfl
  · refine hbatching.endBatch hsteady.sound hclosed ?_
    rw [Batch.group?, Group.ofList?, dif_neg hrecorded, hdescription]

/-- Requests of a batch, one of them a command that is refused. -/
def batchedRun : List Request :=
  [.command (.splitBlock ⟨⟨0, 0⟩, "groups"⟩ 0 1),
    .command (.remove (.within ⟨0, 0⟩ "items" (.list 7))),
    .setBatchRefresh ⟨2, 0⟩, .command (.insert ⟨⟨0, 0⟩, "items", .list 0, .bare "New"⟩)]

/-- Over the sample document such a batch records two edits, and making them at once comes to the
same. -/
theorem execute_of_batchedRun : ∃ (editor : Editor) (answers : List (Except Refusal Reply))
    (between : Editor) (batch : Batch), editor.Reachable ∧ editor.history.batch = none ∧
      (∀ request ∈ batchedRun, request.WellFormed ∧ request.Batched) ∧
      runAll (.beginBatch none :: batchedRun) editor = .ok (answers, between) ∧
      between.history.batch = some batch ∧ ∃ hrecorded : batch.edits ≠ [], ∃ last,
        between.endBatch = (.ok true, last) ∧
          editor.execute ⟨batch.edits, hrecorded, batch.refresh, none⟩ = (.ok (), last) := by
  obtain ⟨start, hstart, hcount⟩ := exists_start (d := .sample) (g := .free) (s := .standard)
    (p := fun start => match runAll (.beginBatch none :: batchedRun) start with
      | .ok (_, between) => (between.history.batch.map fun batch => batch.edits.length) = some 2
      | .error _ => false) (by cbv)
  have hreachable := reachable_ofDocument Node.wellFormed_sample Grammar.distinct_free hstart
  obtain ⟨-, -, -, -, hhistory⟩ :=
    mirrors_ofDocument Node.wellFormed_sample Grammar.distinct_free hstart
  have hclosed : start.history.batch = none := by rw [hhistory]; rfl
  have hrequests : ∀ request ∈ batchedRun, request.WellFormed ∧ request.Batched := by decide
  obtain ⟨answers, between, batch, hrun, hbatch, hgroup⟩ :=
    execute_of_batch hreachable hclosed none hrequests
  have hrecorded : batch.edits ≠ [] := by
    rw [hrun] at hcount
    have hlength : batch.edits.length = 2 := by simpa [hbatch] using hcount
    exact List.ne_nil_of_length_pos (by omega)
  exact ⟨start, answers, between, batch, hreachable, hclosed, hrequests, hrun, hbatch, hrecorded,
    hgroup hrecorded⟩

end Editor

end TreeEditor
