import TreeEditor.Proofs.Runs

/-!
# The states and the document

What the states of an editor tell of its document, in terms of what an editor can be asked
(`Editor.InStep`), holds throughout every run. So the check of an editor never finds anything, and
whether it is made or not changes no answer (`Editor.runAll_withChecks`).
-/

namespace TreeEditor.Editor

variable {editor editor' : Editor} {ν : Handle → Option Node}

/-- The states of an editor are in step with its document. -/
structure InStep (editor : Editor) : Prop where
  /-- The register leads from each place to the state that stands there, and nowhere else. -/
  registered : ∀ place h, editor.stateAt? place = some h ↔
    ∃ state, editor.store.get? h = some state ∧ state.place = place
  /-- Every state is found at its path. -/
  reachable : ∀ h, editor.store.Live h → ∃ path, editor.pathOf h = .ok path ∧
    editor.resolve path = .ok h
  /-- A state is ready, with a branch for each property with children of its node, in order, that
  holds the states of the children in order; or it is vacant and has no branches. -/
  settled : ∀ h state, editor.store.get? h = some state →
    Settled editor.grammar editor.node? state (editor.node? h)
  /-- A vacant state stands in the slot of an optional child. -/
  vacant : ∀ h state, editor.store.get? h = some state → state.stage = .vacant →
    ∃ owner name, state.place = .within owner name .optional
  /-- No block of states is empty. -/
  populated : ∀ h state, editor.store.get? h = some state → ∀ name blocks,
    (name, Branch.blockList blocks) ∈ state.branches → ∀ block ∈ blocks, block.members ≠ []
  /-- Every branch was made for the state that keeps it. -/
  owned : editor.store.Owned

/-- The states that stand for a document are in step with it. -/
theorem Mirrors.inStep (hmirrors : editor.Mirrors ν) : editor.InStep := by
  have hσ := hmirrors.standing
  have hnode : ∀ h state, editor.store.get? h = some state → editor.node? h = ν h :=
    fun h state hstate => node?_eq hmirrors ⟨state, hstate⟩
  constructor
  · intro place h
    rw [← Store.place?_eq_some]
    exact ⟨hσ.registered place h, fun hat => hσ.enrolled place h hat (Set.notMem_empty h)⟩
  · intro h hlive
    obtain ⟨path, hclimbs⟩ := hσ.rooted h hlive
    exact ⟨path, pathOf_eq_ok.mpr hclimbs, (resolve_eq_ok hmirrors).mpr hclimbs⟩
  · intro h state hstate
    rw [hnode h state hstate]
    refine (hσ.settled h state hstate (Set.notMem_empty h)).congr
      fun entry hentry slot child hchild => ?_
    obtain ⟨childState, hfound⟩ :=
      Store.live_of_place? (hσ.place?_of_entry hstate (Set.notMem_empty h) hentry hchild)
    exact hnode child childState hfound
  · intro h state hstate hstage
    have hsettled := hσ.settled h state hstate (Set.notMem_empty h)
    have hlabel : ν h = none := hsettled.vacant_iff.mp hstage
    cases hplace : state.place with
    | root =>
      have hroot := (hσ.root_iff h).mp (Store.place?_eq_some.mpr ⟨state, hstate, hplace⟩)
      rw [hroot, hmirrors.document] at hlabel
      cases hlabel
    | within owner name slot =>
      have hat : editor.store.place? h = some (.within owner name slot) :=
        Store.place?_eq_some.mpr ⟨state, hstate, hplace⟩
      obtain ⟨node, hnode⟩ := hσ.isSome_of_place? hat
      have howner := hσ.parent_live hat
      obtain ⟨branch, hbranch, hchild⟩ :=
        (hσ.linked owner howner (Set.notMem_empty owner) name slot h).mp hat
      have hrel := hσ.rel_branch? howner hnode name
      rw [hbranch, rel_some_right] at hrel
      obtain ⟨P, -, hreflects⟩ := hrel
      obtain ⟨rfl, -⟩ := hreflects.slot_of_none hchild hlabel
      exact ⟨owner, name, rfl⟩
  · intro h state hstate name blocks hentry block hblock
    obtain ⟨path, hclimbs⟩ := hσ.rooted h ⟨state, hstate⟩
    have hbranch : editor.store.branch? h name = some (.blockList blocks) := by
      rw [Store.branch?, hstate, Option.bind_some]
      exact (Table.mem_iff_get? (hσ.settled h state hstate (Set.notMem_empty h)).keys).mp hentry
    have howner : editor.store.Climbs h (BranchPath.mk path name).owner := hclimbs
    obtain ⟨locus, rfl, hheld⟩ := Locus.exists_of_branch? hmirrors howner hbranch
    obtain ⟨contents, hproperty, hcorrespond⟩ := locus.exists_blocks hheld
    have hfits := (hmirrors.valid.reach hmirrors.wellFormed locus.reach).fits
      locus.wellFormed.keys locus.shaped
    rw [hproperty] at hfits
    obtain ⟨i, hi⟩ := List.getElem?_of_mem hblock
    obtain ⟨content, hcontent, hcorresponds⟩ :=
      rel_some_right.mp (hi ▸ rel_getElem? hcorrespond i)
    intro hempty
    refine hfits.populated content (List.mem_of_getElem? hcontent)
      (List.length_eq_zero_iff.mp ?_)
    rw [hcorresponds.members.length_eq, hempty]
    rfl
  · exact hσ.owned

/-! ## Checks -/

/-- An editor that is checked after every request, or one that is not. -/
def withChecks (editor : Editor) (verifyInvariants : Bool) : Editor :=
  editor.withRecord id fun settings => { settings with verifyInvariants }

/-- Checks are no matter of the document and the states. -/
theorem Sound.withChecks (h : editor.Sound) (flag : Bool) : (editor.withChecks flag).Sound := by
  obtain ⟨ν, hmirrors⟩ := h
  exact ⟨ν, hmirrors.standing, hmirrors.document, hmirrors.wellFormed, hmirrors.valid,
    hmirrors.distinct⟩

/-- An outcome with an editor that is checked or not. -/
def Outcome.withChecks {α : Type} (flag : Bool) (outcome : Outcome α) : Outcome α :=
  Outcome.withRecord id (fun settings => { settings with verifyInvariants := flag }) outcome

/-- The check of a sound editor passes, whether it is made or not. -/
theorem checked_withChecks {α : Type} (h : editor.Sound) (answer : α) (flag : Bool) :
    checked answer (editor.withChecks flag) = Outcome.withChecks flag (checked answer editor) := by
  rw [checked_eq h, checked_eq (h.withChecks flag)]
  rfl

/-- A group that is made leaves the states standing for the document, with any history. -/
theorem Sound.applyAll {edits : List Edit} (h : editor.Sound)
    (hedits : ∀ edit ∈ edits, edit.WellFormed) (hall : applyAll edits editor = (.ok (), editor'))
    (refresh : Option Path) (history : History) :
    Sound { editor'.refreshAt refresh with history } := by
  have hattempt := applyAll_attempt h hedits
  rw [hall] at hattempt
  cases hattempt with
  | made hmade =>
    exact ((foldlM_apply_eq_ok h hedits hmade).2.1.refreshAt refresh).history history

/-- An edit is recorded alike with checks and without. -/
theorem recordEdit_withChecks (edit : Edit) (refresh : Option Path) (flag : Bool) :
    (editor.withChecks flag).recordEdit edit refresh =
      (editor.recordEdit edit refresh).withChecks flag := by
  unfold recordEdit
  rw [show (editor.withChecks flag).history = editor.history from rfl]
  cases editor.history.batch with
  | some batch => rfl
  | none =>
    dsimp only
    rw [withChecks, refreshAt_withRecord]
    rfl

/-- Whether an editor is checked changes nothing of how it carries a command out. -/
theorem perform_withChecks (h : editor.Steady) {command : Command}
    (hcommand : ∀ node ∈ command.nodes, node.WellFormed) (flag : Bool) :
    (editor.withChecks flag).perform command =
      Outcome.withChecks flag (editor.perform command) := by
  obtain ⟨ν, hmirrors⟩ := h.sound
  unfold perform
  rw [withChecks, plan_withRecord]
  cases hplanned : editor.plan command with
  | error failure => rfl
  | ok planned =>
    -- The check passes either way, since the editor that it sees is sound.
    obtain ⟨edit, refresh⟩ := planned
    have hedit : edit.WellFormed :=
      ((plan_grants hmirrors command).of_eq_ok hplanned).nodes _ hmirrors.wellFormed hcommand
    dsimp only [commit]
    rw [apply_withRecord]
    cases happly : editor.apply edit with
    | error failure => rfl
    | ok next =>
      obtain ⟨_, -, hbecomes⟩ := (apply_becomes h.sound hedit).of_eq_ok happly
      dsimp only [Except.map]
      rw [← withChecks, recordEdit_withChecks,
        checked_withChecks (hbecomes.sound.recordEdit edit refresh)]
      cases checked () (next.recordEdit edit refresh) with
      | mk result last => cases result <;> rfl

/-- Whether an editor is checked changes nothing of how it undoes. -/
theorem undo_withChecks (h : editor.Steady) (flag : Bool) :
    (editor.withChecks flag).undo = Outcome.withChecks flag editor.undo := by
  unfold undo History.popDone
  rw [show (editor.withChecks flag).history = editor.history from rfl]
  cases editor.history.inBatch with
  | true => rfl
  | false =>
    cases hdone : editor.history.done with
    | nil => rfl
    | cons group rest =>
      -- What was recorded is well-formed, so the editor is sound after its inverses are made.
      have hedits := Edit.wellFormed_inverses (h.group (.inl (hdone ▸ List.mem_cons_self)))
      rw [if_neg Bool.false_ne_true, if_neg Bool.false_ne_true]
      dsimp only
      rw [withChecks, applyAll_withRecord]
      cases hall : Editor.applyAll group.undoEdits editor with
      | mk result next =>
        cases result with
        | error failure => rfl
        | ok =>
          dsimp only [Outcome.withRecord]
          rw [refreshAt_withRecord]
          exact checked_withChecks (h.sound.applyAll hedits hall group.refresh _) true flag

/-- Whether an editor is checked changes nothing of how it redoes. -/
theorem redo_withChecks (h : editor.Steady) (flag : Bool) :
    (editor.withChecks flag).redo = Outcome.withChecks flag editor.redo := by
  unfold redo History.popUndone
  rw [show (editor.withChecks flag).history = editor.history from rfl]
  cases editor.history.inBatch with
  | true => rfl
  | false =>
    cases hundone : editor.history.undone with
    | nil => rfl
    | cons group rest =>
      have hedits := h.group (.inr (hundone ▸ List.mem_cons_self))
      rw [if_neg Bool.false_ne_true, if_neg Bool.false_ne_true]
      dsimp only
      rw [withChecks, applyAll_withRecord]
      cases hall : Editor.applyAll group.redoEdits editor with
      | mk result next =>
        cases result with
        | error failure => rfl
        | ok =>
          dsimp only [Outcome.withRecord]
          rw [refreshAt_withRecord]
          exact checked_withChecks (h.sound.applyAll hedits hall group.refresh _) true flag

/-- Whether an editor is checked changes nothing of how it makes a group. -/
theorem execute_withChecks (h : editor.Sound) {group : Group}
    (hedits : ∀ edit ∈ group.edits, edit.WellFormed) (flag : Bool) :
    (editor.withChecks flag).execute group = Outcome.withChecks flag (editor.execute group) := by
  unfold execute
  rw [show (editor.withChecks flag).history = editor.history from rfl]
  cases editor.history.inBatch with
  | true => rfl
  | false =>
    rw [if_neg Bool.false_ne_true, if_neg Bool.false_ne_true, withChecks, applyAll_withRecord]
    cases hall : Editor.applyAll group.redoEdits editor with
    | mk result next =>
      cases result with
      | error failure => rfl
      | ok =>
        dsimp only [Outcome.withRecord]
        rw [refreshAt_withRecord]
        exact checked_withChecks (h.applyAll hedits hall group.refresh _) () flag

/-- Whether an editor is checked changes nothing of how it aborts a batch. -/
theorem abortBatch_withChecks (h : editor.Steady) (flag : Bool) :
    (editor.withChecks flag).abortBatch = Outcome.withChecks flag editor.abortBatch := by
  unfold abortBatch History.takeBatch
  rw [show (editor.withChecks flag).history = editor.history from rfl]
  cases hbatch : editor.history.batch with
  | none => rfl
  | some batch =>
    dsimp only
    -- The batch is off the history before it is taken back, with checks and without.
    have hframe := revertAll_withRecord
      { editor with history := { editor.history with batch := none } } id
      (fun settings => { settings with verifyInvariants := flag }) batch.edits.reverse
    rw [show ({ editor.withChecks flag with history := { editor.history with batch := none } }) =
      withRecord { editor with history := { editor.history with batch := none } } id
        (fun settings => { settings with verifyInvariants := flag }) from rfl, hframe]
    cases hreverted : revertAll batch.edits.reverse
        { editor with history := { editor.history with batch := none } } with
    | mk result last =>
      cases result with
      | error failure => rfl
      | ok =>
        have hsound := (foldlM_apply_eq_ok (h.sound.history _)
          (Edit.wellFormed_inverses (h.batch hbatch)) (revertAll_eq_ok.mp hreverted)).2.1
        exact checked_withChecks hsound batch.edits.length flag

/-- Whether an editor is checked changes nothing of how it ends a batch. -/
theorem endBatch_withChecks (editor : Editor) (flag : Bool) :
    (editor.withChecks flag).endBatch = Outcome.withChecks flag editor.endBatch := by
  unfold endBatch History.takeBatch
  rw [show (editor.withChecks flag).history = editor.history from rfl]
  cases editor.history.batch with
  | none => rfl
  | some batch =>
    dsimp only
    cases batch.group? with
    | none => rfl
    | some group =>
      dsimp only
      rw [withChecks, refreshAt_withRecord]
      rfl

/-- Whether an editor is checked changes neither the answer to a request nor what it leaves. -/
theorem run_withChecks (h : editor.Steady) {request : Request} (hrequest : request.WellFormed)
    (flag : Bool) :
    (editor.withChecks flag).run request = Outcome.withChecks flag (editor.run request) := by
  cases request with
  | command asked => exact perform_withChecks h hrequest flag
  | undo => rw [run, undo_withChecks h]; rfl
  | redo => rw [run, redo_withChecks h]; rfl
  | execute group =>
    rw [run, execute_withChecks h.sound fun edit hedit node hnode =>
      hrequest node (List.mem_flatMap_of_mem hedit hnode)]
    rfl
  | abortBatch => rw [run, abortBatch_withChecks h]; rfl
  | endBatch => rw [run, endBatch_withChecks]; rfl
  | beginBatch description =>
    unfold run beginBatch
    dsimp only
    rw [show (editor.withChecks flag).history = editor.history from rfl]
    cases editor.history.beginBatch description <;> rfl
  | setBatchRefresh state =>
    unfold run setBatchRefresh
    dsimp only
    rw [show (editor.withChecks flag).history = editor.history from rfl, withChecks,
      pathOf_withRecord]
    cases editor.pathOf state with
    | error failure => rfl
    | ok path => cases editor.history.batch <;> rfl

/-- Whether an editor is checked changes nothing of a run but the editor's own settings. -/
theorem runAll_withChecks {requests : List Request} (h : editor.Steady)
    (hrequests : ∀ request ∈ requests, request.WellFormed) (flag : Bool) :
    runAll requests (editor.withChecks flag) =
      (runAll requests editor).map (Prod.map id (withChecks · flag)) := by
  -- By induction on the requests: every editor on the way is steady again.
  induction requests generalizing editor with
  | nil => rfl
  | cons request rest ih =>
    have hrequest := hrequests request List.mem_cons_self
    have hreturned : Outcome.returned ((editor.withChecks flag).run request) =
        (Outcome.returned (editor.run request)).map (Prod.map id (withChecks · flag)) := by
      rw [run_withChecks h hrequest]
      rcases editor.run request with ⟨_ | reply, next⟩
      · rename_i failure
        cases failure <;> rfl
      · rfl
    rw [runAll, runAll, hreturned]
    cases hanswer : Outcome.returned (editor.run request) with
    | error breach => rfl
    | ok found =>
      obtain ⟨answer, next⟩ := found
      have hnext := (turn_of_returned h hrequest hanswer).steady h hrequest
        (mapError_ne_broken answer)
      have hrest := ih hnext fun r hr => hrequests r (List.mem_cons_of_mem _ hr)
      simp only [Except.map, Prod.map, id, ok_bind, hrest]
      cases runAll rest next <;> rfl

/-! ## Runs -/

variable {document : Node} {grammar : Grammar} {settings : Settings} {start : Editor}
  {requests : List Request}

/-- An editor that is checked is made of the same documents as one that is not. -/
theorem ofDocument_withChecks (h : ofDocument document grammar settings = .ok start)
    (flag : Bool) : ofDocument document grammar { settings with verifyInvariants := flag } =
      .ok (start.withChecks flag) := by
  obtain ⟨_, hvalid, h⟩ := bind_eq_ok.mp h
  obtain ⟨⟨root, store⟩, hcreate, h⟩ := bind_eq_ok.mp h
  cases h
  rw [ofDocument, hvalid, ok_bind, hcreate]
  rfl

/-- The states of an editor are in step with its document after every request of every run, whether
the request is granted or refused, and the check finds nothing. So no run breaks down over a
violation, and whether the editor is checked is no matter for what a run comes to. -/
theorem inStep_of_run (hdocument : document.WellFormed) (hgrammar : grammar.Distinct)
    (hstart : ofDocument document grammar settings = .ok start)
    (hrequests : ∀ request ∈ requests, request.WellFormed) :
    (∀ answers last, runAll requests start = .ok (answers, last) →
      last.verify = .ok () ∧ last.InStep) ∧
    (∀ violation, runAll requests start ≠ .error (.violated violation)) ∧
    ∀ flag, ∃ other,
      ofDocument document grammar { settings with verifyInvariants := flag } = .ok other ∧
        runAll requests other = (runAll requests start).map (Prod.map id (withChecks · flag)) := by
  have hsteady := steady_ofDocument hdocument hgrammar hstart
  refine ⟨fun answers last hrun => ?_, fun violation hbroken => ?_, fun flag =>
    ⟨start.withChecks flag, ofDocument_withChecks hstart flag,
      runAll_withChecks hsteady hrequests flag⟩⟩
  · have hsound := (steady_runAll hsteady hrequests hrun).sound
    exact ⟨hsound.verify, hsound.elim fun _ hmirrors => hmirrors.inStep⟩
  · obtain ⟨_, _, _, _, _, _, _, _, turn⟩ := exists_turn_of_breach hsteady hrequests hbroken
    obtain ⟨_, _, heq⟩ := turn.breach rfl
    cases heq

/-- A run over the sample document in which a group is rolled back, a batch is aborted and edits are
undone and redone. -/
def mixedRun : List Request :=
  [.command (.insert ⟨⟨0, 0⟩, "items", .list 1, .bare "New"⟩),
    .execute (.plain (.remove ⟨[], "items"⟩ (.list 0) (.bare "A"))
      [.remove ⟨[], "items"⟩ (.list 7) (.bare "A")]),
    .undo, .redo, .beginBatch none, .command (.assign (.within ⟨0, 0⟩ "extra" .optional) none),
    .command (.splitBlock ⟨⟨0, 0⟩, "groups"⟩ 0 1), .abortBatch]

/-- At the end of such a run the states are in step with the document. -/
theorem inStep_of_mixedRun :
    Node.sample.WellFormed ∧ Grammar.free.Distinct ∧ (∀ request ∈ mixedRun, request.WellFormed) ∧
      ∃ start answers last, ofDocument .sample .free .standard = .ok start ∧
        runAll mixedRun start = .ok (answers, last) ∧ last.verify = .ok () ∧ last.InStep := by
  have hdocument := Node.wellFormed_sample
  have hgrammar := Grammar.distinct_free
  have hrequests : ∀ request ∈ mixedRun, request.WellFormed := by decide
  obtain ⟨start, hstart, hrun⟩ := exists_start (d := .sample) (g := .free) (s := .standard)
    (p := fun start => (runAll mixedRun start).toOption.isSome) (by cbv)
  obtain ⟨⟨answers, last⟩, hrun⟩ := Option.isSome_iff_exists.mp hrun
  have hrun := toOption_eq_some.mp hrun
  obtain ⟨hstep, -, -⟩ := inStep_of_run hdocument hgrammar hstart hrequests
  exact ⟨hdocument, hgrammar, hrequests, start, answers, last, hstart, hrun,
    hstep answers last hrun⟩

end TreeEditor.Editor
