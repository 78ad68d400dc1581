import TreeEditor.Proofs.Breakdowns

/-!
# Undoing and redoing as walking along snapshots

A timeline is a list of snapshots of a document with a present one among them. A command that goes
through puts a new snapshot in front and drops the later ones; undoing and redoing walk back and
forth; a batch works on a draft, which becomes a snapshot when the batch ends and is dropped when it
is aborted (`Timeline.Step`). An editor keeps no snapshots but edits. All the same it answers every
such request as a timeline does, and shows the same document (`Editor.follows_of_run`): the edits of
every recorded group lead from one snapshot to the next, and taken back they lead from that one to
the very one before (`Timeline.Shows`).
-/

namespace TreeEditor

/-- The snapshots of a document, one of them the present one. -/
structure Timeline where
  /-- How many snapshots are kept besides the present one; zero sets no limit. -/
  limit : Nat
  /-- The earlier snapshots, the one before the present one in front. -/
  past : List Node
  present : Node
  /-- The later snapshots, the one after the present one in front. -/
  future : List Node
  /-- What the open batch has made of the present document, with the number of its commands. -/
  draft : Option (Node × Nat)

namespace Timeline

/-- The timeline of a document that has not been changed. -/
def start (limit : Nat) (document : Node) : Timeline := ⟨limit, [], document, [], none⟩

/-- The document that a timeline shows: the draft, or else the present snapshot. -/
def document (timeline : Timeline) : Node :=
  match timeline.draft with
  | some (document, _) => document
  | none => timeline.present

/-- A timeline goes on with a new snapshot. The later ones are dropped, and the oldest ones as far
as the limit asks for it. -/
def advance (document : Node) (timeline : Timeline) : Timeline :=
  let past := timeline.present :: timeline.past
  { timeline with
    past := if timeline.limit = 0 then past else past.take timeline.limit
    present := document
    future := []
    draft := none }

/-- A command has made a new document: the next snapshot, or the next draft of the open batch. -/
def record (document : Node) (timeline : Timeline) : Timeline :=
  match timeline.draft with
  | some (_, commands) => { timeline with draft := some (document, commands + 1) }
  | none => timeline.advance document

/-- How a timeline answers a request. A command may be refused; what else it makes of the document
is up to the command. All else is up to the timeline. -/
inductive Step (timeline : Timeline) : Request → Except Refusal Reply → Timeline → Prop where
  | refused (command : Command) (reason : Refusal) :
    Step timeline (.command command) (.error reason) timeline
  | changed (command : Command) (document : Node) :
    Step timeline (.command command) (.ok (Editor.Command.reply command))
      (timeline.record document)
  | undone {snapshot : Node} {rest : List Node} (hclosed : timeline.draft = none)
    (hpast : timeline.past = snapshot :: rest) :
    Step timeline .undo (.ok (.whether true)) { timeline with
      past := rest, present := snapshot, future := timeline.present :: timeline.future }
  | nothingDone (hclosed : timeline.draft = none) (hpast : timeline.past = []) :
    Step timeline .undo (.ok (.whether false)) timeline
  | redone {snapshot : Node} {rest : List Node} (hclosed : timeline.draft = none)
    (hfuture : timeline.future = snapshot :: rest) :
    Step timeline .redo (.ok (.whether true)) { timeline with
      past := timeline.present :: timeline.past, present := snapshot, future := rest }
  | nothingUndone (hclosed : timeline.draft = none) (hfuture : timeline.future = []) :
    Step timeline .redo (.ok (.whether false)) timeline
  | began (description : Option String) (hclosed : timeline.draft = none) :
    Step timeline (.beginBatch description) (.ok .done)
      { timeline with draft := some (timeline.present, 0) }
  /-- A batch without commands leaves no snapshot. -/
  | dropped {document : Node} (hopened : timeline.draft = some (document, 0)) :
    Step timeline .endBatch (.ok (.whether false)) { timeline with draft := none }
  | ended {document : Node} {commands : Nat}
    (hopened : timeline.draft = some (document, commands + 1)) :
    Step timeline .endBatch (.ok (.whether true)) (timeline.advance document)
  | aborted {document : Node} {commands : Nat}
    (hopened : timeline.draft = some (document, commands)) :
    Step timeline .abortBatch (.ok (.count commands)) { timeline with draft := none }
  /-- Nothing is undone or redone and no batch begun while a batch is open. -/
  | batchOpen {request : Request} {draft : Node × Nat} (hopened : timeline.draft = some draft)
    (hrequest : request = .undo ∨ request = .redo ∨ ∃ description,
      request = .beginBatch description) : Step timeline request (.error .batchOpen) timeline
  | noBatch {request : Request} (hclosed : timeline.draft = none)
    (hrequest : request = .endBatch ∨ request = .abortBatch) :
    Step timeline request (.error .noBatch) timeline

/-- What is seen of an editor is what a timeline shows. -/
structure Agrees (timeline : Timeline) (editor : Editor) : Prop where
  document : editor.document = timeline.document
  undoLevels : editor.history.done.length = timeline.past.length
  redoLevels : editor.history.undone.length = timeline.future.length
  inBatch : editor.history.inBatch = timeline.draft.isSome
  within : 0 < timeline.limit →
    editor.history.done.length + editor.history.undone.length ≤ timeline.limit

/-- An editor answers requests one after the other as a timeline does, and agrees with it all the
way. -/
inductive Follows : Timeline → List Request → Editor → Prop where
  | nil {timeline : Timeline} {editor : Editor} (agrees : timeline.Agrees editor) :
    Follows timeline [] editor
  | cons {timeline next : Timeline} {editor after : Editor} {request : Request}
    {answer : Except Refusal Reply} {requests : List Request} (agrees : timeline.Agrees editor)
    (returned : Editor.Outcome.returned (editor.run request) = .ok (answer, after))
    (step : timeline.Step request answer next) (rest : Follows next requests after) :
    Follows timeline (request :: requests) editor

/-! ## What an editor keeps of a timeline -/

/-- Groups lead back from a document through earlier snapshots, the newest group first. -/
inductive Behind (grammar : Grammar) : List Group → List Node → Node → Prop where
  | nil (document : Node) : Behind grammar [] [] document
  | cons {group : Group} {groups : List Group} {before document : Node} {earlier : List Node}
    (joins : Edit.Joins grammar group.edits before document)
    (rest : Behind grammar groups earlier before) :
    Behind grammar (group :: groups) (before :: earlier) document

/-- Groups lead on from a document through later snapshots, the group undone last first. -/
inductive Ahead (grammar : Grammar) : List Group → List Node → Node → Prop where
  | nil (document : Node) : Ahead grammar [] [] document
  | cons {group : Group} {groups : List Group} {document after : Node} {later : List Node}
    (joins : Edit.Joins grammar group.edits document after)
    (rest : Ahead grammar groups later after) :
    Ahead grammar (group :: groups) (after :: later) document

/-- The edits of a batch lead from the present snapshot to the draft. -/
inductive Drafts (grammar : Grammar) (present : Node) :
    Option Batch → Option (Node × Nat) → Prop where
  | closed : Drafts grammar present none none
  | opened {batch : Batch} {document : Node}
    (joins : Edit.Joins grammar batch.edits present document) :
    Drafts grammar present (some batch) (some (document, batch.edits.length))

/-- An editor shows the document of a timeline and its groups lead through the snapshots. -/
structure Shows (timeline : Timeline) (editor : Editor) : Prop where
  document : editor.document = timeline.document
  behind : Behind editor.grammar editor.history.done timeline.past timeline.present
  ahead : Ahead editor.grammar editor.history.undone timeline.future timeline.present
  drafts : Drafts editor.grammar timeline.present editor.history.batch timeline.draft
  limit : editor.history.limit = timeline.limit
  /-- No more groups are kept than the limit allows. -/
  within : 0 < timeline.limit → timeline.past.length + timeline.future.length ≤ timeline.limit

variable {grammar : Grammar} {timeline : Timeline} {document : Node} {groups : List Group}
  {snapshots : List Node}

/-- There are as many groups behind as there are earlier snapshots. -/
theorem Behind.length_eq (h : Behind grammar groups snapshots document) :
    groups.length = snapshots.length := by
  induction h with
  | nil => rfl
  | cons _ _ ih => rw [List.length_cons, List.length_cons, ih]

/-- There are as many groups ahead as there are later snapshots. -/
theorem Ahead.length_eq (h : Ahead grammar groups snapshots document) :
    groups.length = snapshots.length := by
  induction h with
  | nil => rfl
  | cons _ _ ih => rw [List.length_cons, List.length_cons, ih]

/-- The newest groups lead back through the newest snapshots. -/
theorem Behind.take (h : Behind grammar groups snapshots document) (n : Nat) :
    Behind grammar (groups.take n) (snapshots.take n) document := by
  induction h generalizing n with
  | nil => simpa only [List.take_nil] using Behind.nil _
  | cons joins _ ih =>
    cases n with
    | zero => exact .nil _
    | succ n => exact .cons joins (ih n)

/-- While no batch is open there is no draft, and the present snapshot is shown. -/
theorem Shows.closed {editor : Editor} (h : timeline.Shows editor)
    (hclosed : editor.history.batch = none) :
    timeline.draft = none ∧ editor.document = timeline.present := by
  have hdrafts := h.drafts
  have hdocument := h.document
  rw [hclosed] at hdrafts
  rw [Timeline.document] at hdocument
  generalize timeline.draft = draft at hdrafts hdocument
  cases hdrafts
  exact ⟨rfl, hdocument⟩

/-- The edits of an open batch lead from the present snapshot to the draft, which is shown. -/
theorem Shows.opened {editor : Editor} (h : timeline.Shows editor) {batch : Batch}
    (hopened : editor.history.batch = some batch) :
    timeline.draft = some (editor.document, batch.edits.length) ∧
      Edit.Joins editor.grammar batch.edits timeline.present editor.document := by
  have hdrafts := h.drafts
  have hdocument := h.document
  rw [hopened] at hdrafts
  rw [Timeline.document] at hdocument
  generalize timeline.draft = draft at hdrafts hdocument
  cases hdrafts with
  | opened joins =>
    rw [show editor.document = _ from hdocument]
    exact ⟨rfl, joins⟩

/-- An editor agrees with the timeline that it shows. -/
theorem Shows.agrees {editor : Editor} (h : timeline.Shows editor) : timeline.Agrees editor := by
  refine ⟨h.document, h.behind.length_eq, h.ahead.length_eq, ?_, fun hpos => ?_⟩
  · rw [History.inBatch]
    cases hbatch : editor.history.batch with
    | none => rw [(h.closed hbatch).1]; rfl
    | some batch => rw [(h.opened hbatch).1]; rfl
  · rw [h.behind.length_eq, h.ahead.length_eq]
    exact h.within hpos

/-- Where at most the limit was kept, forgetting the oldest group keeps the newest ones. -/
theorem trim_eq_take {limit : Nat} (h : 0 < limit → groups.length ≤ limit + 1) :
    History.trim limit groups = if limit = 0 then groups else groups.take limit := by
  unfold History.trim
  by_cases hzero : limit = 0
  · rw [if_pos hzero, if_neg (by omega)]
  · have hlength := h (by omega)
    rw [if_neg hzero]
    split
    · rw [List.dropLast_eq_take, show groups.length - 1 = limit by omega]
    · rw [List.take_of_length_le (by omega)]

/-- An editor that has recorded one more group shows a timeline with one more snapshot. -/
theorem Shows.advance {editor editor' : Editor} (h : timeline.Shows editor) {group : Group}
    (joins : Edit.Joins editor.grammar group.edits timeline.present document)
    (hdocument : editor'.document = document) (hgrammar : editor'.grammar = editor.grammar)
    (hhistory : editor'.history = { editor.history with batch := none }.push group) :
    (timeline.advance document).Shows editor' := by
  have hlength := h.behind.length_eq
  -- The history keeps one group for each snapshot, so both are cut off at the same length.
  have htrim : History.trim editor.history.limit (group :: editor.history.done) =
      if timeline.limit = 0 then group :: editor.history.done
      else (group :: editor.history.done).take timeline.limit := by
    rw [h.limit]
    refine trim_eq_take fun hpos => ?_
    have := h.within hpos
    rw [List.length_cons, hlength]
    omega
  have hbehind : Behind editor.grammar (group :: editor.history.done)
      (timeline.present :: timeline.past) document := .cons joins h.behind
  refine ⟨hdocument, ?_, ?_, ?_, ?_, fun hpos => ?_⟩
  · rw [hhistory, hgrammar, History.push]
    dsimp only [Timeline.advance]
    rw [htrim]
    split
    · exact hbehind
    · exact hbehind.take timeline.limit
  · rw [hhistory]
    exact .nil document
  · rw [hhistory]
    exact .closed
  · rw [hhistory]
    exact h.limit
  · dsimp only [Timeline.advance] at hpos ⊢
    rw [if_neg (by omega), List.length_take, List.length_nil]
    omega

end Timeline

/-- Requests that make no group that was built elsewhere. -/
def Request.Plain : Request → Prop
  | .execute _ | .setBatchRefresh _ => False
  | _ => True

namespace Editor

open Timeline

variable {editor editor' : Editor} {request : Request} {result : Except Failure Reply}
  {timeline : Timeline}

/-- Edits that can be made one after the other are made. -/
theorem Attempt.eq_ok {edits : List Edit} {outcome : Except Failure Unit} {next : Editor}
    (hattempt : Attempt editor edits outcome editor') (h : edits.foldlM apply editor = .ok next) :
    outcome = .ok () := by
  cases hattempt with
  | made => rfl
  | refused hparts hmade hrefused | broken hparts hmade hrefused =>
    rw [hparts, List.foldlM_append, hmade, ok_bind, List.foldlM_cons, hrefused] at h
    cases h

/-- A command that goes through takes a timeline to its next document. -/
theorem follows_committed (h : editor.Steady) (hshows : timeline.Shows editor) {command : Command}
    {edit : Edit} {refresh : Option Path} {next : Editor}
    (hcommand : (Request.command command).WellFormed)
    (hplanned : editor.plan command = .ok (edit, refresh)) (hmade : editor.apply edit = .ok next) :
    (timeline.record next.document).Shows (next.recordEdit edit refresh) := by
  obtain ⟨hjoins, hgrammar⟩ := joins_of_planned h.sound hcommand hplanned hmade
  have hhistory := (record_apply hmade).1
  unfold recordEdit Timeline.record
  rw [hhistory]
  -- Without a batch the edit is a group of its own; in a batch it goes on with the draft.
  cases hbatch : editor.history.batch with
  | none =>
    obtain ⟨hdraft, hpresent⟩ := hshows.closed hbatch
    have hgroup : Edit.Joins editor.grammar (Group.single edit refresh none).edits
        timeline.present next.document := hpresent ▸ hjoins
    rw [hdraft]
    refine hshows.advance hgroup ?_ ?_ ?_
    · exact document_refreshAt next refresh
    · exact (grammar_refreshAt next refresh).trans hgrammar
    · dsimp only
      rw [history_refreshAt, hhistory, ← hbatch]
  | some batch =>
    obtain ⟨hdraft, joins⟩ := hshows.opened hbatch
    have hlength : (batch.record edit refresh).edits.length = batch.edits.length + 1 :=
      List.length_append
    rw [hdraft]
    refine ⟨rfl, ?_, ?_, ?_, hshows.limit, hshows.within⟩
    · dsimp only; rw [hgrammar]; exact hshows.behind
    · dsimp only; rw [hgrammar]; exact hshows.ahead
    · dsimp only
      rw [hgrammar, ← hlength]
      exact .opened (joins.append hjoins)

/-- The newest group can be undone, which leads to the snapshot before the present one. -/
theorem exists_undone (h : editor.Steady) (hshows : timeline.Shows editor) {group : Group}
    {rest : List Group} (hclosed : editor.history.batch = none)
    (hdone : editor.history.done = group :: rest) :
    ∃ snapshot earlier next, timeline.draft = none ∧ timeline.past = snapshot :: earlier ∧
      group.undoEdits.foldlM apply editor = .ok next ∧
      Shows { timeline with
        past := earlier, present := snapshot, future := timeline.present :: timeline.future }
        { next.refreshAt group.refresh with
          history := ⟨rest, group :: editor.history.undone, editor.history.limit, none⟩ } := by
  obtain ⟨hdraft, hpresent⟩ := hshows.closed hclosed
  have hbehind := hshows.behind
  have hwithin := hshows.within
  rw [hdone] at hbehind
  -- The snapshots go with the groups one by one, so the newest group has one before it.
  generalize hpast : timeline.past = past at hbehind hwithin
  cases hbehind with
  | @cons _ _ snapshot _ earlier joins behind =>
    have hback := joins.back
    rw [← hpresent] at hback
    have hgroup := h.group (.inl (hdone ▸ List.mem_cons_self))
    obtain ⟨next, hmade, hbecomes⟩ :=
      exists_of_effects h.sound (Edit.wellFormed_inverses hgroup) hback
    have hgrammar : (next.refreshAt group.refresh).grammar = editor.grammar :=
      (grammar_refreshAt next group.refresh).trans hbecomes.alike.grammar
    refine ⟨snapshot, earlier, next, hdraft, rfl, hmade, ?_, ?_, ?_, ?_, hshows.limit,
      fun hpos => ?_⟩
    · rw [Timeline.document, hdraft]
      exact (document_refreshAt next group.refresh).trans hbecomes.document
    · dsimp only; rw [hgrammar]; exact behind
    · dsimp only; rw [hgrammar]; exact .cons joins hshows.ahead
    · dsimp only; rw [hdraft]; exact .closed
    · have hle := hwithin hpos
      dsimp only at hpos hle ⊢
      simp only [List.length_cons] at hle ⊢
      omega

/-- The group undone last can be redone, which leads to the snapshot after the present one. -/
theorem exists_redone (h : editor.Steady) (hshows : timeline.Shows editor) {group : Group}
    {rest : List Group} (hclosed : editor.history.batch = none)
    (hundone : editor.history.undone = group :: rest) :
    ∃ snapshot later next, timeline.draft = none ∧ timeline.future = snapshot :: later ∧
      group.redoEdits.foldlM apply editor = .ok next ∧
      Shows { timeline with
        past := timeline.present :: timeline.past, present := snapshot, future := later }
        { next.refreshAt group.refresh with
          history := ⟨group :: editor.history.done, rest, editor.history.limit, none⟩ } := by
  obtain ⟨hdraft, hpresent⟩ := hshows.closed hclosed
  have hahead := hshows.ahead
  have hwithin := hshows.within
  rw [hundone] at hahead
  -- As for undoing: the group undone last has the snapshot that it led to.
  generalize hfuture : timeline.future = future at hahead hwithin
  cases hahead with
  | @cons _ _ _ snapshot later joins ahead =>
    have hforth := joins.forth
    rw [← hpresent] at hforth
    have hgroup := h.group (.inr (hundone ▸ List.mem_cons_self))
    obtain ⟨next, hmade, hbecomes⟩ := exists_of_effects h.sound hgroup hforth
    have hgrammar : (next.refreshAt group.refresh).grammar = editor.grammar :=
      (grammar_refreshAt next group.refresh).trans hbecomes.alike.grammar
    refine ⟨snapshot, later, next, hdraft, rfl, hmade, ?_, ?_, ?_, ?_, hshows.limit,
      fun hpos => ?_⟩
    · rw [Timeline.document, hdraft]
      exact (document_refreshAt next group.refresh).trans hbecomes.document
    · dsimp only; rw [hgrammar]; exact .cons joins hshows.behind
    · dsimp only; rw [hgrammar]; exact ahead
    · dsimp only; rw [hdraft]; exact .closed
    · have hle := hwithin hpos
      dsimp only at hpos hle ⊢
      simp only [List.length_cons] at hle ⊢
      omega

/-- An editor answers a plain request as the timeline does that it shows. -/
theorem Turn.follows (turn : Turn editor request result editor') (h : editor.Steady)
    (hrequest : request.WellFormed) (hplain : request.Plain) (hshows : timeline.Shows editor) :
    ∃ answer next, result = Except.mapError .refused answer ∧
      timeline.Step request answer next ∧ next.Shows editor' := by
  cases turn with
  | @refused command reason hrefused =>
    exact ⟨.error reason, timeline, rfl, .refused command reason, hshows⟩
  | @committed command edit refresh next hplanned hmade =>
    exact ⟨.ok (Command.reply command), _, rfl, .changed command next.document,
      follows_committed h hshows hrequest hplanned hmade⟩
  | @batchOpen request batch hopened hasked =>
    refine ⟨.error .batchOpen, timeline, rfl, .batchOpen (hshows.opened hopened).1 ?_, hshows⟩
    rcases hasked with rfl | rfl | hbegin | ⟨group, rfl⟩
    · exact .inl rfl
    · exact .inr (.inl rfl)
    · exact .inr (.inr hbegin)
    · exact hplain.elim
  | @noBatch request hclosed hasked =>
    refine ⟨.error .noBatch, timeline, rfl, .noBatch (hshows.closed hclosed).1 ?_, hshows⟩
    rcases hasked with rfl | rfl | ⟨state, rfl⟩
    · exact .inl rfl
    · exact .inr rfl
    · exact hplain.elim
  | noState => exact hplain.elim
  | @idle request hclosed hasked =>
    have hdraft := (hshows.closed hclosed).1
    rcases hasked with ⟨rfl, hdone⟩ | ⟨rfl, hundone⟩
    · have hpast := hshows.behind.length_eq
      rw [hdone] at hpast
      exact ⟨.ok (.whether false), timeline, rfl,
        .nothingDone hdraft (List.length_eq_zero_iff.mp hpast.symm), hshows⟩
    · have hfuture := hshows.ahead.length_eq
      rw [hundone] at hfuture
      exact ⟨.ok (.whether false), timeline, rfl,
        .nothingUndone hdraft (List.length_eq_zero_iff.mp hfuture.symm), hshows⟩
  | @undone group rest next hclosed hdone hmade =>
    obtain ⟨snapshot, earlier, found, hdraft, hpast, hfound, hnext⟩ :=
      exists_undone h hshows hclosed hdone
    rw [hmade] at hfound
    cases hfound
    exact ⟨.ok (.whether true), _, rfl, .undone hdraft hpast, hnext⟩
  | @redone group rest next hclosed hundone hmade =>
    obtain ⟨snapshot, later, found, hdraft, hfuture, hfound, hnext⟩ :=
      exists_redone h hshows hclosed hundone
    rw [hmade] at hfound
    cases hfound
    exact ⟨.ok (.whether true), _, rfl, .redone hdraft hfuture, hnext⟩
  | executed => exact hplain.elim
  | @failed request edits failure after hasks hattempt =>
    -- The edits of a recorded group can always be made, so no such request is refused.
    cases hasks with
    | undo hclosed hdone =>
      obtain ⟨_, _, _, -, -, hmade, -⟩ := exists_undone h hshows hclosed hdone
      cases hattempt.eq_ok hmade
    | redo hclosed hundone =>
      obtain ⟨_, _, _, -, -, hmade, -⟩ := exists_redone h hshows hclosed hundone
      cases hattempt.eq_ok hmade
    | execute => exact hplain.elim
  | @began description hclosed =>
    obtain ⟨hdraft, hpresent⟩ := hshows.closed hclosed
    exact ⟨.ok .done, _, rfl, .began description hdraft, hpresent, hshows.behind, hshows.ahead,
      .opened (.nil timeline.present), hshows.limit, hshows.within⟩
  | @dropped batch hopened hempty =>
    obtain ⟨hdraft, joins⟩ := hshows.opened hopened
    rw [hempty] at joins hdraft
    have hpresent : editor.document = timeline.present := (Option.some.inj joins.forth).symm
    exact ⟨.ok (.whether false), _, rfl, .dropped hdraft, hpresent, hshows.behind, hshows.ahead,
      .closed, hshows.limit, hshows.within⟩
  | @ended batch group hopened hedits =>
    obtain ⟨hdraft, joins⟩ := hshows.opened hopened
    obtain ⟨n, hn⟩ : ∃ n, batch.edits.length = n + 1 :=
      Nat.exists_eq_succ_of_ne_zero fun hzero =>
        group.nonempty (hedits.trans (List.length_eq_zero_iff.mp hzero))
    rw [hn] at hdraft
    rw [← hedits] at joins
    exact ⟨.ok (.whether true), _, rfl, .ended hdraft, hshows.advance joins
      (document_refreshAt editor group.refresh) (grammar_refreshAt editor group.refresh) rfl⟩
  | @aborted batch back hopened hback =>
    obtain ⟨hdraft, joins⟩ := hshows.opened hopened
    have hsound := h.sound.history { editor.history with batch := none }
    obtain ⟨_, heffects, hbecomes⟩ := (foldlM_apply_answers hsound
      (Edit.wellFormed_inverses (h.batch hopened))).of_eq_ok hback
    dsimp only at heffects
    rw [joins.back] at heffects
    cases heffects
    refine ⟨.ok (.count batch.edits.length), _, rfl, .aborted hdraft, hbecomes.document, ?_, ?_,
      ?_, ?_, hshows.within⟩
    · rw [hbecomes.alike.grammar, hbecomes.alike.history]; exact hshows.behind
    · rw [hbecomes.alike.grammar, hbecomes.alike.history]; exact hshows.ahead
    · rw [hbecomes.alike.history]; exact .closed
    · rw [hbecomes.alike.history]; exact hshows.limit
  | @stuck batch _ _ _ hopened hstuck =>
    have hback := (hshows.opened hopened).2.back
    obtain ⟨back, hmade, -⟩ := exists_of_effects
      (h.sound.history { editor.history with batch := none })
      (Edit.wellFormed_inverses (h.batch hopened)) hback
    rw [revertAll_eq_ok.mpr hmade] at hstuck
    cases hstuck
  | named => exact hplain.elim

/-- A request that is not broken off returns its answer. -/
theorem returned_eq_ok {outcome : Outcome Reply} {answer : Except Refusal Reply}
    (h : outcome.1 = answer.mapError .refused) :
    Outcome.returned outcome = .ok (answer, outcome.2) := by
  obtain ⟨result, next⟩ := outcome
  subst h
  cases answer <;> rfl

/-- An editor goes on following the timeline that it shows. -/
theorem follows_of_shows {requests : List Request} (h : editor.Steady)
    (hshows : timeline.Shows editor)
    (hrequests : ∀ request ∈ requests, request.WellFormed ∧ request.Plain) :
    Follows timeline requests editor := by
  induction requests generalizing editor timeline with
  | nil => exact .nil hshows.agrees
  | cons request rest ih =>
    obtain ⟨hrequest, hplain⟩ := hrequests request List.mem_cons_self
    have turn := run_turn h hrequest
    obtain ⟨answer, next, hanswer, hstep, hnext⟩ := turn.follows h hrequest hplain hshows
    rw [hanswer] at turn
    exact .cons hshows.agrees (returned_eq_ok hanswer) hstep
      (ih (turn.steady h hrequest (mapError_ne_broken answer)) hnext fun r hr =>
        hrequests r (List.mem_cons_of_mem _ hr))

/-- An editor answers commands, undoing and redoing, and the beginning, ending and aborting of
batches as the timeline of its document does. It never breaks down on them, and it agrees with the
timeline after each of them. -/
theorem follows_of_run {document : Node} {grammar : Grammar} {settings : Settings}
    {requests : List Request} (hdocument : document.WellFormed) (hgrammar : grammar.Distinct)
    (hstart : ofDocument document grammar settings = .ok editor)
    (hrequests : ∀ request ∈ requests, request.WellFormed ∧ request.Plain) :
    Follows (.start settings.maxUndoLevels document) requests editor := by
  obtain ⟨-, -, heq, -, hhistory⟩ := mirrors_ofDocument hdocument hgrammar hstart
  refine follows_of_shows (steady_ofDocument hdocument hgrammar hstart) ?_ hrequests
  refine ⟨heq, ?_, ?_, ?_, ?_, fun _ => Nat.zero_le _⟩
  · rw [hhistory]; exact .nil document
  · rw [hhistory]; exact .nil document
  · rw [hhistory]; exact .closed
  · rw [hhistory]; rfl

/-- Commands inside a batch and outside, undone and redone, with room for two snapshots only. -/
def plainRun : List Request :=
  [.command (.remove (.within ⟨0, 0⟩ "items" (.list 0))),
    .command (.splitBlock ⟨⟨0, 0⟩, "groups"⟩ 0 1), .beginBatch none,
    .command (.unassign (.within ⟨0, 0⟩ "more" .optional)), .undo, .abortBatch,
    .command (.mergeBlocks ⟨⟨0, 0⟩, "groups"⟩ 1), .undo, .undo, .undo, .redo, .endBatch]

/-- The editor of the sample document follows its timeline through them. -/
theorem follows_plainRun :
    Node.sample.WellFormed ∧ Grammar.free.Distinct ∧
      (∀ request ∈ plainRun, request.WellFormed ∧ request.Plain) ∧
      ∃ start, ofDocument .sample .free ⟨2, true⟩ = .ok start ∧
        Follows (.start 2 .sample) plainRun start := by
  have hrequests : ∀ request ∈ plainRun, request.WellFormed ∧ request.Plain := by
    have hwell : ∀ request ∈ plainRun, request.WellFormed := by decide
    have hplain : ∀ request ∈ plainRun, request.Plain := by simp [plainRun, Request.Plain]
    exact fun request hmem => ⟨hwell request hmem, hplain request hmem⟩
  obtain ⟨start, hstart, -⟩ := exists_start (d := .sample) (g := .free) (s := ⟨2, true⟩)
    (p := fun _ => true) (by cbv)
  exact ⟨Node.wellFormed_sample, Grammar.distinct_free, hrequests, start, hstart,
    follows_of_run Node.wellFormed_sample Grammar.distinct_free hstart hrequests⟩

end Editor

end TreeEditor
