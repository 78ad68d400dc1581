import TreeEditor.Proofs.Planning
import TreeEditor.Proofs.Rollback

/-!
# What a request comes to

Carrying a request out takes one of a few turns (`Editor.Turn`): it is declined and nothing changes,
an edit or a group of edits goes through and the history is brought up to date, or an edit of a
group is refused and those before it are taken back. An editor breaks down only where taking back
fails (`Editor.run_turn`). The check after a request never finds anything.
-/

namespace TreeEditor

/-! ## What requests bring along -/

/-- The nodes that a request brings along. -/
def Request.nodes : Request → List Node
  | .command asked => asked.nodes
  | .execute asked => asked.edits.flatMap Edit.nodes
  | _ => []

/-- All that a request brings along is well-formed. -/
def Request.WellFormed (request : Request) : Prop := ∀ node ∈ request.nodes, node.WellFormed

/-- All that a request brings along is filled. -/
def Request.Filled (request : Request) : Prop := ∀ node ∈ request.nodes, node.Filled

instance : DecidablePred Request.WellFormed := fun request =>
  inferInstanceAs (Decidable (∀ node ∈ request.nodes, node.WellFormed))

instance : DecidablePred Request.Filled := fun request =>
  inferInstanceAs (Decidable (∀ node ∈ request.nodes, node.Filled))

/-- All edits that a history has recorded. -/
def History.edits (history : History) : List Edit :=
  history.done.flatMap Group.edits ++ history.undone.flatMap Group.edits ++
    history.batch.toList.flatMap Batch.edits

namespace Editor

/-- The states of an editor stand for its document, and all edits that it has recorded are
well-formed. -/
structure Steady (editor : Editor) : Prop where
  sound : editor.Sound
  recorded : ∀ edit ∈ editor.history.edits, edit.WellFormed

/-! ## Turns -/

/-- What making a group of edits comes to. -/
inductive Attempt (editor : Editor) (edits : List Edit) : Except Failure Unit → Editor → Prop where
  | made {next : Editor} (hmade : edits.foldlM apply editor = .ok next) :
    Attempt editor edits (.ok ()) next
  | refused {made rest : List Edit} {edit : Edit} {between back : Editor} {reason : Refusal}
    (hparts : edits = made ++ edit :: rest) (hmade : made.foldlM apply editor = .ok between)
    (hrefused : between.apply edit = .error (.refused reason))
    (hback : (made.reverse.map Edit.invert).foldlM apply between = .ok back) :
    Attempt editor edits (.error (.refused reason))
      { back with store := { back.store with journal := editor.store.journal } }
  | broken {made rest : List Edit} {edit : Edit} {between after : Editor} {reason : Refusal}
    {name : String} {reason' : Refusal} (hparts : edits = made ++ edit :: rest)
    (hmade : made.foldlM apply editor = .ok between)
    (hrefused : between.apply edit = .error (.refused reason))
    (hstuck : revertAll made.reverse between =
      (.error (.broken (.revertFailed name reason')), after)) :
    Attempt editor edits (.error (.broken (.revertFailed name reason')))
      { after with store := { after.store with journal := editor.store.journal } }

/-- A request is one to make a group of edits. -/
inductive Asks (editor : Editor) : Request → List Edit → Prop where
  | undo {group : Group} {rest : List Group} (hclosed : editor.history.batch = none)
    (hdone : editor.history.done = group :: rest) : Asks editor .undo group.undoEdits
  | redo {group : Group} {rest : List Group} (hclosed : editor.history.batch = none)
    (hundone : editor.history.undone = group :: rest) : Asks editor .redo group.redoEdits
  | execute {group : Group} (hclosed : editor.history.batch = none) :
    Asks editor (.execute group) group.redoEdits

/-- What carrying a request out comes to. -/
inductive Turn (editor : Editor) : Request → Except Failure Reply → Editor → Prop where
  /-- A command cannot be planned, or its edit is refused. -/
  | refused {command : Command} {reason : Refusal}
    (hrefused : (editor.plan command >>= fun planned => editor.apply planned.1) =
      .error (.refused reason)) :
    Turn editor (.command command) (.error (.refused reason)) editor
  | committed {command : Command} {edit : Edit} {refresh : Option Path} {next : Editor}
    (hplanned : editor.plan command = .ok (edit, refresh)) (hmade : editor.apply edit = .ok next) :
    Turn editor (.command command) (.ok (Command.reply command)) (next.recordEdit edit refresh)
  /-- No group is made and no batch begun while a batch is open. -/
  | batchOpen {request : Request} {batch : Batch} (hopened : editor.history.batch = some batch)
    (hrequest : request = .undo ∨ request = .redo ∨ (∃ description,
      request = .beginBatch description) ∨ ∃ group, request = .execute group) :
    Turn editor request (.error (.refused .batchOpen)) editor
  | noBatch {request : Request} (hclosed : editor.history.batch = none)
    (hrequest : request = .endBatch ∨ request = .abortBatch ∨ ∃ state,
      request = .setBatchRefresh state) :
    Turn editor request (.error (.refused .noBatch)) editor
  | noState {state : Handle} {reason : Refusal}
    (hpath : editor.pathOf state = .error (.refused reason)) :
    Turn editor (.setBatchRefresh state) (.error (.refused reason)) editor
  /-- There is nothing to undo or to redo. -/
  | idle {request : Request} (hclosed : editor.history.batch = none)
    (hrequest : request = .undo ∧ editor.history.done = [] ∨
      request = .redo ∧ editor.history.undone = []) :
    Turn editor request (.ok (.whether false)) editor
  | undone {group : Group} {rest : List Group} {next : Editor}
    (hclosed : editor.history.batch = none) (hdone : editor.history.done = group :: rest)
    (hmade : group.undoEdits.foldlM apply editor = .ok next) :
    Turn editor .undo (.ok (.whether true)) { next.refreshAt group.refresh with
      history := ⟨rest, group :: editor.history.undone, editor.history.limit, none⟩ }
  | redone {group : Group} {rest : List Group} {next : Editor}
    (hclosed : editor.history.batch = none) (hundone : editor.history.undone = group :: rest)
    (hmade : group.redoEdits.foldlM apply editor = .ok next) :
    Turn editor .redo (.ok (.whether true)) { next.refreshAt group.refresh with
      history := ⟨group :: editor.history.done, rest, editor.history.limit, none⟩ }
  | executed {group : Group} {next : Editor} (hclosed : editor.history.batch = none)
    (hmade : group.redoEdits.foldlM apply editor = .ok next) :
    Turn editor (.execute group) (.ok .done)
      { next.refreshAt group.refresh with history := editor.history.push group }
  /-- An edit of a group is refused. -/
  | failed {request : Request} {edits : List Edit} {failure : Failure} {after : Editor}
    (hasks : Asks editor request edits) (hattempt : Attempt editor edits (.error failure) after) :
    Turn editor request (.error failure) after
  | began {description : Option String} (hclosed : editor.history.batch = none) :
    Turn editor (.beginBatch description) (.ok .done)
      { editor with history := { editor.history with batch := some ⟨[], none, description⟩ } }
  | dropped {batch : Batch} (hopened : editor.history.batch = some batch)
    (hempty : batch.edits = []) : Turn editor .endBatch (.ok (.whether false))
      { editor with history := { editor.history with batch := none } }
  | ended {batch : Batch} {group : Group} (hopened : editor.history.batch = some batch)
    (hedits : group.edits = batch.edits) : Turn editor .endBatch (.ok (.whether true))
      { editor.refreshAt group.refresh with
        history := { editor.history with batch := none }.push group }
  | aborted {batch : Batch} {back : Editor} (hopened : editor.history.batch = some batch)
    (hback : (batch.edits.reverse.map Edit.invert).foldlM apply
      { editor with history := { editor.history with batch := none } } = .ok back) :
    Turn editor .abortBatch (.ok (.count batch.edits.length)) back
  | stuck {batch : Batch} {after : Editor} {name : String} {reason : Refusal}
    (hopened : editor.history.batch = some batch) (hstuck : revertAll batch.edits.reverse
      { editor with history := { editor.history with batch := none } } =
        (.error (.broken (.revertFailed name reason)), after)) :
    Turn editor .abortBatch (.error (.broken (.revertFailed name reason))) after
  | named {state : Handle} {batch : Batch} {path : Path}
    (hopened : editor.history.batch = some batch) :
    Turn editor (.setBatchRefresh state) (.ok .done) { editor with
      history := { editor.history with batch := some { batch with refresh := some path } } }

variable {editor editor' : Editor} {edits : List Edit}

/-! ## Groups -/

/-- Making a group of edits comes to one of three ends. -/
theorem applyAll_attempt (hsound : editor.Sound) (hedits : ∀ edit ∈ edits, edit.WellFormed) :
    editor.Attempt edits (applyAll edits editor).1 (applyAll edits editor).2 := by
  rcases foldlM_apply_cases hsound hedits with
    ⟨next, hmade⟩ | ⟨made, edit, rest, between, reason, rfl, hmade, hrefused⟩
  · rw [applyAll_of_ok hmade]
    exact .made hmade
  · have hmem : ∀ e ∈ made, e.WellFormed := fun e he => hedits e (List.mem_append_left _ he)
    obtain ⟨-, hbetween, -⟩ := foldlM_apply_eq_ok hsound hmem hmade
    cases hback : revertAll made.reverse between with
    | mk result after =>
      cases result with
      | ok =>
        have hback' := revertAll_eq_ok.mp hback
        rw [applyAll_of_refused hmade hrefused hback']
        exact .refused rfl hmade hrefused hback'
      | error failure =>
        obtain ⟨name, reason', rfl⟩ := revertAll_broken hbetween
          (fun e he => hmem e (List.mem_reverse.mp he)) hback
        rw [applyAll_of_broken hmade hrefused hback]
        exact .broken rfl hmade hrefused hback

/-! ## Requests -/

/-- The check of a sound editor passes. -/
theorem checked_eq {α : Type} (h : editor.Sound) (answer : α) :
    checked answer editor = (.ok answer, editor) := by
  rw [checked, h.verify]
  split <;> rfl

/-- Announcing a state again only adds to what was announced. -/
theorem refreshAt_eq (refresh : Option Path) (editor : Editor) : ∃ journal,
    editor.refreshAt refresh = { editor with store := { editor.store with journal } } := by
  unfold refreshAt
  split
  · exact ⟨_, rfl⟩
  · split <;> exact ⟨_, rfl⟩

/-- Announcing a state again changes no state. -/
theorem Sound.refreshAt (h : editor.Sound) (refresh : Option Path) :
    (editor.refreshAt refresh).Sound := by
  obtain ⟨journal, heq⟩ := refreshAt_eq refresh editor
  exact heq ▸ h.journal journal

/-- Recording an edit changes no state. -/
theorem Sound.recordEdit (h : editor.Sound) (edit : Edit) (refresh : Option Path) :
    (editor.recordEdit edit refresh).Sound := by
  unfold Editor.recordEdit
  split
  · exact h.history _
  · exact (h.refreshAt refresh).history _

/-- A command is carried out or refused. -/
theorem perform_turn (h : editor.Steady) {command : Command}
    (hcommand : ∀ node ∈ command.nodes, node.WellFormed) :
    Turn editor (.command command) (editor.perform command).1 (editor.perform command).2 := by
  obtain ⟨ν, hmirrors⟩ := h.sound
  have hplan := plan_grants hmirrors command
  unfold perform
  cases hplanned : editor.plan command with
  | error failure =>
    rw [hplanned] at hplan
    cases failure with
    | broken breach => exact hplan.elim
    | refused reason => exact .refused (by rw [hplanned]; rfl)
  | ok planned =>
    obtain ⟨edit, refresh⟩ := planned
    have hedit : edit.WellFormed := fun node hnode =>
      (hplan.of_eq_ok hplanned).nodes _ hmirrors.wellFormed hcommand node hnode
    dsimp only
    unfold commit
    cases happly : editor.apply edit with
    | error failure =>
      obtain ⟨-, reason, rfl⟩ := (apply_becomes h.sound hedit).of_eq_error happly
      exact .refused (by rw [hplanned]; exact happly)
    | ok next =>
      obtain ⟨_, -, hbecomes⟩ := (apply_becomes h.sound hedit).of_eq_ok happly
      dsimp only
      rw [checked_eq (hbecomes.sound.recordEdit edit refresh)]
      exact .committed hplanned happly

/-- The edits of a recorded group are well-formed. -/
theorem Steady.group (h : editor.Steady) {group : Group}
    (hgroup : group ∈ editor.history.done ∨ group ∈ editor.history.undone) :
    ∀ edit ∈ group.edits, edit.WellFormed := fun edit hedit => by
  refine h.recorded edit (List.mem_append_left _ (List.mem_append.mpr ?_))
  exact hgroup.imp (List.mem_flatMap_of_mem · hedit) (List.mem_flatMap_of_mem · hedit)

/-- The edits of the open batch are well-formed. -/
theorem Steady.batch (h : editor.Steady) {batch : Batch}
    (hbatch : editor.history.batch = some batch) : ∀ edit ∈ batch.edits, edit.WellFormed :=
  fun edit hedit => h.recorded edit (List.mem_append_right _ (by rw [hbatch]; simpa using hedit))

/-- A group that was made leaves a sound editor, with any history. -/
theorem Sound.finish {group : Group} {next : Editor} (hsound : editor.Sound)
    (hedits : ∀ edit ∈ edits, edit.WellFormed) (hmade : edits.foldlM apply editor = .ok next)
    (history : History) : Sound { next.refreshAt group.refresh with history } :=
  ((foldlM_apply_eq_ok hsound hedits hmade).2.1.refreshAt group.refresh).history history

/-- Undoing comes to one of its turns. -/
theorem undo_turn (h : editor.Steady) :
    Turn editor .undo (editor.run .undo).1 (editor.run .undo).2 := by
  unfold run replying undo History.inBatch History.popDone
  cases hbatch : editor.history.batch with
  | some batch => exact .batchOpen hbatch (.inl rfl)
  | none =>
    -- The group to undo was recorded, so its inverses are well-formed and the attempt cannot break
    -- down.
    cases hdone : editor.history.done with
    | nil => exact .idle hbatch (.inl ⟨rfl, hdone⟩)
    | cons group rest =>
      have hedits := Edit.wellFormed_inverses (h.group (.inl (hdone ▸ List.mem_cons_self)))
      have hattempt := applyAll_attempt h.sound hedits
      rw [Option.isSome_none, if_neg Bool.false_ne_true]
      dsimp only
      cases hall : applyAll group.undoEdits editor with
      | mk result next =>
        rw [show group.edits.reverse.map Edit.invert = group.undoEdits from rfl, hall] at hattempt
        cases result with
        | error failure => exact .failed (.undo hbatch hdone) hattempt
        | ok =>
          cases hattempt with
          | made hmade =>
            dsimp only
            rw [checked_eq (h.sound.finish hedits hmade _)]
            exact .undone hbatch hdone hmade

/-- Redoing comes to one of its turns. -/
theorem redo_turn (h : editor.Steady) :
    Turn editor .redo (editor.run .redo).1 (editor.run .redo).2 := by
  unfold run replying redo History.inBatch History.popUndone
  cases hbatch : editor.history.batch with
  | some batch => exact .batchOpen hbatch (.inr (.inl rfl))
  | none =>
    cases hundone : editor.history.undone with
    | nil => exact .idle hbatch (.inr ⟨rfl, hundone⟩)
    | cons group rest =>
      have hedits := h.group (.inr (hundone ▸ List.mem_cons_self))
      have hattempt := applyAll_attempt h.sound hedits
      rw [Option.isSome_none, if_neg Bool.false_ne_true]
      dsimp only
      cases hall : applyAll group.redoEdits editor with
      | mk result next =>
        rw [show group.edits = group.redoEdits from rfl, hall] at hattempt
        cases result with
        | error failure => exact .failed (.redo hbatch hundone) hattempt
        | ok =>
          cases hattempt with
          | made hmade =>
            dsimp only
            rw [checked_eq (h.sound.finish hedits hmade _)]
            exact .redone hbatch hundone hmade

/-- Making a group comes to one of its turns. -/
theorem execute_turn (h : editor.Steady) {group : Group}
    (hedits : ∀ edit ∈ group.edits, edit.WellFormed) :
    Turn editor (.execute group) (editor.run (.execute group)).1
      (editor.run (.execute group)).2 := by
  unfold run replying execute History.inBatch
  cases hbatch : editor.history.batch with
  | some batch => exact .batchOpen hbatch (.inr (.inr (.inr ⟨group, rfl⟩)))
  | none =>
    have hattempt := applyAll_attempt h.sound hedits
    dsimp only
    rw [Option.isSome_none, if_neg Bool.false_ne_true]
    cases hall : applyAll group.redoEdits editor with
    | mk result next =>
      rw [show group.edits = group.redoEdits from rfl, hall] at hattempt
      cases result with
      | error failure => exact .failed (.execute hbatch) hattempt
      | ok =>
        cases hattempt with
        | made hmade =>
          obtain ⟨-, -, halike⟩ := foldlM_apply_eq_ok h.sound hedits hmade
          -- A group that is made leaves the history alone, which is then what the group is pushed
          -- on.
          obtain ⟨journal, hrefresh⟩ := refreshAt_eq group.refresh next
          have hhistory : (next.refreshAt group.refresh).history = editor.history := by
            rw [hrefresh]
            exact halike.history
          dsimp only
          rw [checked_eq (h.sound.finish hedits hmade _), hhistory]
          exact .executed hbatch hmade

/-- Ending a batch comes to one of its turns. -/
theorem endBatch_turn (editor : Editor) :
    Turn editor .endBatch (editor.run .endBatch).1 (editor.run .endBatch).2 := by
  unfold run replying endBatch History.takeBatch
  cases hbatch : editor.history.batch with
  | none => exact .noBatch hbatch (.inl rfl)
  | some batch =>
    dsimp only
    unfold Batch.group? Group.ofList?
    by_cases hempty : batch.edits = []
    · rw [dif_pos hempty]
      exact .dropped hbatch hempty
    · rw [dif_neg hempty]
      exact .ended hbatch rfl

/-- Aborting a batch comes to one of its turns. -/
theorem abortBatch_turn (h : editor.Steady) :
    Turn editor .abortBatch (editor.run .abortBatch).1 (editor.run .abortBatch).2 := by
  unfold run replying abortBatch History.takeBatch
  cases hbatch : editor.history.batch with
  | none => exact .noBatch hbatch (.inr (.inl rfl))
  | some batch =>
    have hedits : ∀ edit ∈ batch.edits.reverse, edit.WellFormed := fun edit hedit =>
      h.batch hbatch edit (List.mem_reverse.mp hedit)
    have hsound := h.sound.history { editor.history with batch := none }
    dsimp only
    -- The batch is taken off the history first; what it recorded is then taken back, the latest
    -- edit first.
    cases hback : revertAll batch.edits.reverse
        { editor with history := { editor.history with batch := none } } with
    | mk result back =>
      cases result with
      | error failure =>
        obtain ⟨name, reason, rfl⟩ := revertAll_broken hsound hedits hback
        exact .stuck hbatch hback
      | ok =>
        have hmade := revertAll_eq_ok.mp hback
        obtain ⟨-, hback', -⟩ := foldlM_apply_eq_ok hsound
          (Edit.wellFormed_inverses (h.batch hbatch)) hmade
        dsimp only
        rw [checked_eq hback']
        exact .aborted hbatch hmade

/-- Every request comes to one of its turns. -/
theorem run_turn (h : editor.Steady) {request : Request} (hrequest : request.WellFormed) :
    Turn editor request (editor.run request).1 (editor.run request).2 := by
  cases request with
  | command command => exact perform_turn h hrequest
  | undo => exact undo_turn h
  | redo => exact redo_turn h
  | beginBatch description =>
    unfold run replying beginBatch History.beginBatch
    cases hbatch : editor.history.batch with
    | some batch => exact .batchOpen hbatch (.inr (.inr (.inl ⟨description, rfl⟩)))
    | none => exact .began hbatch
  | endBatch => exact endBatch_turn editor
  | abortBatch => exact abortBatch_turn h
  | setBatchRefresh state =>
    unfold run replying setBatchRefresh
    dsimp only
    obtain ⟨ν, hmirrors⟩ := h.sound
    have hpath := pathOf_grants hmirrors state
    cases hfound : editor.pathOf state with
    | error failure =>
      rw [hfound] at hpath
      cases failure with
      | broken breach => exact hpath.elim
      | refused reason => exact .noState hfound
    | ok path =>
      cases hbatch : editor.history.batch with
      | none => exact .noBatch hbatch (.inr (.inr ⟨state, rfl⟩))
      | some batch => exact .named hbatch
  | execute group =>
    exact execute_turn h fun edit hedit node hnode =>
      hrequest node (List.mem_flatMap_of_mem hedit hnode)

end Editor

end TreeEditor
