import TreeEditor.Proofs.Reversal

/-!
# Runs without a breakdown

An editor breaks down only where an edit cannot be taken back. The edits of a batch that is open can
always be: each of them recorded what it found (`Editor.Collected`). The edits of a group can be
where the document and all recorded nodes are filled, so no run of filled requests over a filled
document breaks down (`Editor.exists_answers`). A node with an optional child that is assigned
without an item is enough for a breakdown (`Editor.runAll_of_unfilled`).
-/

namespace TreeEditor.Editor

variable {editor editor' : Editor} {request : Request} {result : Except Failure Reply}

/-! ## The open batch -/

/-- The edits of the open batch lead from some document to the present one, and taken back they
lead to that very document. -/
def Collected (editor : Editor) : Prop :=
  ∀ batch, editor.history.batch = some batch →
    ∃ base, Edit.Joins editor.grammar batch.edits base editor.document

/-- Without an open batch there is nothing to lead anywhere. -/
theorem collected_of_closed (h : editor.history.batch = none) : editor.Collected :=
  fun batch hopened => by
    rw [h] at hopened
    cases hopened

/-- No batch is open when a group is made. -/
theorem Asks.closed {edits : List Edit} (hasks : Asks editor request edits) :
    editor.history.batch = none := by
  cases hasks with
  | undo hclosed | redo hclosed | execute hclosed => exact hclosed

/-- An edit that a command is planned as joins the document to what it makes of it. -/
theorem joins_of_planned (hsound : editor.Sound) {command : Command} {edit : Edit}
    {refresh : Option Path} (hcommand : (Request.command command).WellFormed)
    (hplanned : editor.plan command = .ok (edit, refresh))
    (hmade : editor.apply edit = .ok editor') :
    Edit.Joins editor.grammar [edit] editor.document editor'.document ∧
      editor'.grammar = editor.grammar := by
  obtain ⟨ν, hmirrors⟩ := hsound
  have hplan := (plan_grants hmirrors command).of_eq_ok hplanned
  have hedit : edit.WellFormed := hplan.nodes _ hmirrors.wellFormed hcommand
  obtain ⟨_, heffect, hbecomes⟩ := (apply_becomes ⟨ν, hmirrors⟩ hedit).of_eq_ok hmade
  rw [← hbecomes.document] at heffect
  exact ⟨Edit.joins_singleton hmirrors.wellFormed hmirrors.valid hedit hplan.faithful heffect,
    hbecomes.alike.grammar⟩

/-- The edits of an open batch go on leading back. -/
theorem Turn.collected (turn : Turn editor request result editor') (h : editor.Steady)
    (hrequest : request.WellFormed) (hcollected : editor.Collected)
    (hreturns : ∀ breach, result ≠ .error (.broken breach)) : editor'.Collected := by
  -- Only a request that leaves a batch open has anything to show: a command or the start of one.
  cases turn with
  | refused | batchOpen | noBatch | noState | idle => exact hcollected
  | @committed command edit refresh next hplanned hmade =>
    obtain ⟨hjoins, hgrammar⟩ := joins_of_planned h.sound hrequest hplanned hmade
    have hhistory := (record_apply hmade).1
    unfold recordEdit
    cases hopened : next.history.batch with
    | none =>
      refine collected_of_closed ?_
      dsimp only
      rw [History.push, history_refreshAt, hopened]
    | some batch =>
      intro _ heq
      cases heq
      obtain ⟨base, hbase⟩ := hcollected batch (hhistory ▸ hopened)
      refine ⟨base, ?_⟩
      dsimp only
      rw [hgrammar]
      exact hbase.append hjoins
  | undone | redone | dropped | ended => exact collected_of_closed rfl
  | executed hclosed => exact collected_of_closed hclosed
  | began hclosed =>
    intro batch heq
    cases heq
    exact ⟨editor.document, .nil _⟩
  | aborted hopened hback =>
    refine collected_of_closed ?_
    rw [(record_foldlM_apply hback).1]
  | stuck => exact absurd rfl (hreturns _)
  | failed hasks hattempt =>
    cases hattempt with
    | broken => exact absurd rfl (hreturns _)
    | refused hparts hmade hrefused hback =>
      refine collected_of_closed ?_
      rw [show _ = _ from (record_foldlM_apply hback).1, (record_foldlM_apply hmade).1]
      exact hasks.closed
  | @named state batch path hopened =>
    intro _ heq
    cases heq
    exact hcollected batch hopened

/-! ## Filled runs -/

/-- The document of an editor and all edits that it has recorded are filled, and those of the open
batch lead back. -/
structure Full (editor : Editor) : Prop where
  document : editor.document.Filled
  recorded : ∀ edit ∈ editor.history.edits, edit.Filled
  collected : editor.Collected

/-- The edits that stem from recorded edits and from a filled request are filled. -/
theorem Full.stems (hfull : editor.Full) (h : editor.Steady) (hrequest : request.Filled)
    {edit : Edit} (hstems : Stems editor request edit) : edit.Filled :=
  hstems.everywhere hfull.recorded fun _ =>
    everywhere_brings h.sound hfull.document hrequest

/-- What is filled stays filled when a filled request returns. -/
theorem Turn.full (turn : Turn editor request result editor') (h : editor.Steady)
    (hfull : editor.Full) (hrequest : request.WellFormed) (hfilled : request.Filled)
    (hreturns : ∀ breach, result ≠ .error (.broken breach)) : editor'.Full where
  document := by
    obtain ⟨ν, hmirrors⟩ := h.sound
    obtain ⟨edits, hstems, heffects⟩ := (turn.course h hrequest hreturns).effects
    have hedits : ∀ edit ∈ edits, edit.WellFormed := fun edit hedit =>
      (hstems edit hedit).everywhere h.recorded fun _ => h.brings hrequest
    have hkeeps := Edit.effects_induct (p := fun d => d.WellFormed ∧ d.Filled)
      (fun edit hedit a b ha heffect => ⟨Edit.wellFormed_effect ha.1 (hedits edit hedit) heffect,
        Edit.filled_effect ha.1 ha.2 (hfull.stems h hfilled (hstems edit hedit)) heffect⟩)
      ⟨hmirrors.wellFormed, hfull.document⟩ heffects
    exact hkeeps.2
  recorded := fun edit hedit => (turn.recorded hreturns hedit).elim (hfull.recorded edit)
    (everywhere_brings h.sound hfull.document hfilled)
  collected := turn.collected h hrequest hfull.collected hreturns

/-- An editor breaks down on no filled request where all is filled. -/
theorem Turn.returns (turn : Turn editor request result editor') (h : editor.Steady)
    (hfull : editor.Full) (hrequest : request.WellFormed) (hfilled : request.Filled)
    (breach : Breach) : result ≠ .error (.broken breach) := by
  rintro rfl
  cases turn with
  | failed hasks hattempt =>
    cases hattempt with
    | broken hparts hmade hrefused hstuck =>
      -- The edits that were made before the refused one are filled, so they can be taken back.
      have hstems := fun edit hedit => hasks.stems edit (hparts ▸ List.mem_append_left _ hedit)
      obtain ⟨back, hback, -⟩ := exists_back h.sound hfull.document (fun edit hedit =>
        ⟨(hstems edit hedit).everywhere h.recorded fun _ => h.brings hrequest,
          hfull.stems h hfilled (hstems edit hedit)⟩) hmade
      rw [revertAll_eq_ok.mpr hback] at hstuck
      cases hstuck
  | @stuck batch _ _ _ hopened hstuck =>
    obtain ⟨base, hjoins⟩ := hfull.collected batch hopened
    obtain ⟨back, hback, -⟩ := exists_of_effects
      (h.sound.history { editor.history with batch := none })
      (Edit.wellFormed_inverses (h.batch hopened)) hjoins.back
    rw [revertAll_eq_ok.mpr hback] at hstuck
    cases hstuck

/-- An editor that was just made of a filled document. -/
theorem full_ofDocument {document : Node} {grammar : Grammar} {settings : Settings}
    (hdocument : document.WellFormed) (hfilled : document.Filled) (hgrammar : grammar.Distinct)
    (h : ofDocument document grammar settings = .ok editor) : editor.Full := by
  obtain ⟨-, -, heq, -, hhistory⟩ := mirrors_ofDocument hdocument hgrammar h
  refine ⟨heq ▸ hfilled, fun edit hedit => ?_, collected_of_closed (by rw [hhistory]; rfl)⟩
  rw [hhistory] at hedit
  cases hedit

/-- No run breaks down over a violation or over states and a document that disagree, but only where
an edit cannot be taken back; and no run of filled requests over a filled document breaks down at
all. -/
theorem exists_answers {document : Node} {grammar : Grammar} {settings : Settings}
    {requests : List Request} (hdocument : document.WellFormed) (hgrammar : grammar.Distinct)
    (hstart : ofDocument document grammar settings = .ok editor)
    (hrequests : ∀ request ∈ requests, request.WellFormed) :
    (∀ breach, runAll requests editor = .error breach →
      ∃ name reason, breach = .revertFailed name reason) ∧
    (document.Filled → (∀ request ∈ requests, request.Filled) →
      ∃ answers last, runAll requests editor = .ok (answers, last)) := by
  have hsteady := steady_ofDocument hdocument hgrammar hstart
  refine ⟨fun breach hbroken => ?_, fun hfilled hrequests' => ?_⟩
  · obtain ⟨_, _, _, _, _, _, _, _, turn⟩ := exists_turn_of_breach hsteady hrequests hbroken
    exact turn.breach rfl
  · cases hrun : runAll requests editor with
    | ok found => exact ⟨found.1, found.2, rfl⟩
    | error breach =>
      obtain ⟨before, request, after, answers, between, last, rfl, hbefore, turn⟩ :=
        exists_turn_of_breach hsteady hrequests hrun
      -- What is filled at the start is filled when the request comes on which the editor breaks
      -- down.
      obtain ⟨hbetween, hfull⟩ := runAll_induct (p := Full) (q := Request.Filled)
        (fun _ _ answer _ hsteady hfull hwell hfilled turn =>
          turn.full hsteady hfull hwell hfilled (mapError_ne_broken answer))
        hsteady (full_ofDocument hdocument hfilled hgrammar hstart)
        (fun r hr => ⟨hrequests r (List.mem_append_left _ hr),
          hrequests' r (List.mem_append_left _ hr)⟩) hbefore
      have hmem : request ∈ before ++ request :: after :=
        List.mem_append_right _ List.mem_cons_self
      exact absurd rfl (turn.returns hbetween hfull (hrequests request hmem)
        (hrequests' request hmem) breach)

/-- Requests that carry filled nodes, one of them a group that is refused. -/
def filledRun : List Request :=
  [.execute doomed, .beginBatch none,
    .command (.assign (.within ⟨0, 0⟩ "extra" .optional) (some (.bare "New"))), .abortBatch, .undo]

/-- Such a run over the sample document comes to its end. -/
theorem exists_answers_filledRun :
    Node.sample.WellFormed ∧ Node.sample.Filled ∧ Grammar.free.Distinct ∧
      (∀ request ∈ filledRun, request.WellFormed ∧ request.Filled) ∧
      ∃ start, ofDocument .sample .free .standard = .ok start ∧
        ∃ answers last, runAll filledRun start = .ok (answers, last) := by
  have hrequests : ∀ request ∈ filledRun, request.WellFormed := by decide
  have hfilled : ∀ request ∈ filledRun, request.Filled := by decide
  obtain ⟨start, hstart, -⟩ := exists_start (d := .sample) (g := .free) (s := .standard)
    (p := fun _ => true) (by cbv)
  have hsample : Node.sample.Filled := by decide
  exact ⟨Node.wellFormed_sample, hsample, Grammar.distinct_free,
    fun request hmem => ⟨hrequests request hmem, hfilled request hmem⟩, start, hstart,
    (exists_answers Node.wellFormed_sample Grammar.distinct_free hstart hrequests).2 hsample
      hfilled⟩

/-- A document with an empty list. -/
def clear : Node := .mk "Root" [("items", .list [])]

/-- A group that inserts a node with an optional child that is assigned without an item, assigns
that child, and is refused then. -/
def unfilled : Group :=
  .plain (.insert ⟨[], "items"⟩ (.list 0) (.mk "N" [("o", .optional true none)]))
    [.assign ⟨[⟨"items", .list 0⟩], "o"⟩ none (.bare "x"),
      .remove ⟨[], "items"⟩ (.list 7) (.bare "A")]

/-- An editor breaks down on such a group: taken back, the assigned child is unassigned, and so the
inserted node is not the one that was recorded. -/
theorem runAll_of_unfilled :
    ∃ start, ofDocument clear .free .standard = .ok start ∧
      ∃ reason, runAll [.execute unfilled] start = .error (.revertFailed "insert" reason) := by
  obtain ⟨start, hstart, hbreaks⟩ := exists_start (d := clear) (g := .free) (s := .standard)
    (p := fun start => match runAll [.execute unfilled] start with
      | .error (.revertFailed name _) => name = "insert"
      | _ => false) (by cbv)
  refine ⟨start, hstart, ?_⟩
  split at hbreaks
  · rename_i name reason hbroken
    rw [hbroken, of_decide_eq_true hbreaks]
    exact ⟨reason, rfl⟩
  · cases hbreaks

end TreeEditor.Editor
