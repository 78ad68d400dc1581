import TreeEditor.Proofs.Addresses
import TreeEditor.Proofs.Rejection

/-!
# Announcing a state again at the end of a batch

An open batch can be told of a state that is to be announced again when the batch ends. What the
batch keeps is the path that the state has at that time (`Editor.Recalls`), and nothing that is
asked inside the batch changes what it keeps. The path is followed only at the end, after all edits
of the batch: then one event is announced, for the state that has the path by then
(`Editor.refreshed_of_endBatch`).

So the state that was named is announced exactly when it has its path back. An insertion in front of
it suffices to have another one announced in its stead (`Editor.refreshed_elsewhere`).
-/

namespace TreeEditor

/-- Requests that, as long as a batch is open, neither close it nor name a state to be announced
again. -/
def Request.KeepsRefresh : Request → Prop
  | .endBatch | .abortBatch | .setBatchRefresh _ => False
  | _ => True

instance : DecidablePred Request.KeepsRefresh
  | .endBatch | .abortBatch | .setBatchRefresh _ => isFalse id
  | .command _ | .undo | .redo | .beginBatch _ | .execute _ => isTrue trivial

namespace Editor

variable {editor named between last : Editor} {target h : Handle} {path : Path}
  {request : Request}

/-- An editor whose open batch keeps a path at which a state is to be announced again. -/
structure Recalls (editor : Editor) (path : Path) : Prop where
  steady : editor.Steady
  keeps : ∃ batch, editor.history.batch = some batch ∧ batch.refresh = some path

/-- A batch that is told of a state keeps the path of the state. -/
theorem recalls_of_setBatchRefresh (hsteady : editor.Steady)
    (hnamed : editor.setBatchRefresh target = (.ok (), named)) :
    ∃ path, editor.pathOf target = .ok path ∧ named.Recalls path := by
  unfold setBatchRefresh at hnamed
  cases hpath : editor.pathOf target with
  | error failure => rw [hpath] at hnamed; cases hnamed
  | ok path =>
    rw [hpath] at hnamed
    cases hbatch : editor.history.batch with
    | none => rw [hbatch] at hnamed; cases hnamed
    | some batch =>
      rw [hbatch] at hnamed
      cases hnamed
      have turn := @Turn.named editor target batch path hbatch
      exact ⟨path, rfl, turn.steady hsteady nofun nofun, _, rfl, rfl⟩

/-- An edit that is recorded in a batch leaves the path that the batch keeps. -/
theorem keeps_recordEdit {batch : Batch} (hbatch : editor.history.batch = some batch)
    (hrefresh : batch.refresh = some path) (edit : Edit) (refresh : Option Path) :
    ∃ batch, (editor.recordEdit edit refresh).history.batch = some batch ∧
      batch.refresh = some path := by
  rw [recordEdit, hbatch]
  exact ⟨_, rfl, by rw [Batch.record, hrefresh]; rfl⟩

/-- A request inside the batch is answered, and the batch keeps the path. -/
theorem Recalls.step (h : editor.Recalls path) (hrequest : request.WellFormed)
    (hkeeps : request.KeepsRefresh) : ∃ answer after,
      Outcome.returned (editor.run request) = .ok (answer, after) ∧ after.Recalls path := by
  obtain ⟨batch, hbatch, hrefresh⟩ := h.keeps
  have turn := run_turn h.steady hrequest
  generalize hresult : (editor.run request).1 = result at turn
  generalize hafter : (editor.run request).2 = after at turn
  have hrun : editor.run request = (result, after) := Prod.ext hresult hafter
  have hsteady := turn.steady h.steady hrequest
  have hopened : editor.history.batch ≠ none := by rw [hbatch]; nofun
  rw [hrun]
  -- While a batch is open, a request is refused or it is a command that goes through.
  cases turn with
  | @refused _ reason => exact ⟨.error reason, _, rfl, h⟩
  | @committed command edit refresh next hplanned hmade =>
    refine ⟨.ok _, _, rfl, hsteady nofun, ?_⟩
    rw [← (record_apply hmade).1] at hbatch
    exact keeps_recordEdit hbatch hrefresh edit refresh
  | batchOpen => exact ⟨.error .batchOpen, _, rfl, h⟩
  | noBatch hclosed | idle hclosed | undone hclosed | redone hclosed | executed hclosed
  | began hclosed => exact absurd hclosed hopened
  | failed hasks => cases hasks <;> exact absurd ‹_› hopened
  | noState | named | dropped | ended | aborted | stuck => exact hkeeps.elim

/-- Requests inside the batch are answered one after the other, and the batch keeps the path. -/
theorem Recalls.runAll {requests : List Request} (h : editor.Recalls path)
    (hrequests : ∀ request ∈ requests, request.WellFormed ∧ request.KeepsRefresh) :
    ∃ answers last, runAll requests editor = .ok (answers, last) ∧ last.Recalls path := by
  induction requests generalizing editor with
  | nil => exact ⟨[], editor, rfl, h⟩
  | cons request rest ih =>
    obtain ⟨hrequest, hkeeps⟩ := hrequests request List.mem_cons_self
    obtain ⟨answer, after, hreturned, hafter⟩ := h.step hrequest hkeeps
    obtain ⟨answers, last, hrest, hlast⟩ := ih hafter fun r hr =>
      hrequests r (List.mem_cons_of_mem _ hr)
    refine ⟨answer :: answers, last, ?_, hlast⟩
    rw [Editor.runAll, hreturned, ok_bind]
    dsimp only
    rw [hrest]
    rfl

/-- The events that announce the state at a path again. -/
def refreshes (editor : Editor) (path : Path) : List Event :=
  (editor.resolve path).toOption.toList.map .refreshed

/-- Announcing the state at a path again changes no state and announces nothing else. -/
theorem refreshAt_some (editor : Editor) (path : Path) : editor.refreshAt (some path) =
    { editor with store :=
      { editor.store with journal := editor.store.journal ++ editor.refreshes path } } := by
  unfold refreshAt refreshes
  dsimp only
  cases editor.resolve path with
  | ok state => rfl
  | error reason => rfl

/-- The state that is announced again is the one that has the path. -/
theorem refreshes_eq (hsteady : editor.Steady) :
    editor.refreshes path = [.refreshed h] ↔ editor.pathOf h = .ok path := by
  obtain ⟨ν, hmirrors⟩ := hsteady.sound
  rw [pathOf_eq_ok, ← resolve_eq_ok hmirrors, refreshes]
  cases editor.resolve path with
  | ok state => simp
  | error reason => simp

/-- A batch that is ended announces the state at the path that it keeps. -/
theorem Recalls.endBatch (h : editor.Recalls path) : ∃ batch,
    editor.history.batch = some batch ∧ (batch.edits ≠ [] → ∃ last,
      editor.endBatch = (.ok true, last) ∧
        last.store.journal = editor.store.journal ++ editor.refreshes path) := by
  obtain ⟨batch, hbatch, hrefresh⟩ := h.keeps
  refine ⟨batch, hbatch, fun hrecorded => ?_⟩
  have hgroup : batch.group? =
      some ⟨batch.edits, hrecorded, some path, batch.description⟩ := by
    rw [Batch.group?, Group.ofList?, dif_neg hrecorded, hrefresh]
  rw [Editor.endBatch, History.takeBatch, hbatch]
  dsimp only
  rw [hgroup]
  dsimp only
  rw [refreshAt_some]
  exact ⟨_, rfl, rfl⟩

/-- After a state was named in a batch, all commands of the batch are answered. When the batch has
recorded edits, ending it succeeds and announces at most one event, that a state is announced again:
the state that has by then the path that the named one had. The named state is announced exactly
when it has that path again. -/
theorem refreshed_of_endBatch {requests : List Request} (h : editor.Reachable)
    (hnamed : editor.setBatchRefresh target = (.ok (), named))
    (hrequests : ∀ request ∈ requests, request.WellFormed ∧ request.KeepsRefresh) :
    ∃ path answers between batch, editor.pathOf target = .ok path ∧
      runAll requests named = .ok (answers, between) ∧ between.history.batch = some batch ∧
      (batch.edits ≠ [] → ∃ (last : Editor) (events : List Event),
        between.endBatch = (.ok true, last) ∧
        last.store.journal = between.store.journal ++ events ∧
        (events = [] ∨ ∃ state, events = [.refreshed state]) ∧
        ∀ state, events = [.refreshed state] ↔ between.pathOf state = .ok path) := by
  obtain ⟨path, hpath, hrecalls⟩ := recalls_of_setBatchRefresh h.steady hnamed
  obtain ⟨answers, between, hrun, hbetween⟩ := hrecalls.runAll hrequests
  obtain ⟨batch, hbatch, hend⟩ := hbetween.endBatch
  refine ⟨path, answers, between, batch, hpath, hrun, hbatch, fun hrecorded => ?_⟩
  obtain ⟨last, hlast, hjournal⟩ := hend hrecorded
  refine ⟨last, between.refreshes path, hlast, hjournal, ?_, fun state =>
    refreshes_eq hbetween.steady⟩
  unfold refreshes
  cases between.resolve path with
  | ok state => exact .inr ⟨state, rfl⟩
  | error reason => exact .inl rfl

/-- Commands of a batch after which the item has its path back. -/
def returning : List Request :=
  [.command (.insert ⟨⟨0, 0⟩, "items", .list 0, .bare "New"⟩),
    .command (.move (.within ⟨0, 0⟩ "items" (.list 1)) (-1))]

/-- The item of the document is named, has its path back at the end and is announced again. -/
theorem refreshed_of_returning : ∃ (editor named between last : Editor)
    (answers : List (Except Refusal Reply)), editor.Reachable ∧
      editor.setBatchRefresh ⟨1, 0⟩ = (.ok (), named) ∧
      (∀ request ∈ returning, request.WellFormed ∧ request.KeepsRefresh) ∧
      runAll returning named = .ok (answers, between) ∧ between.endBatch = (.ok true, last) ∧
        last.store.journal = between.store.journal ++ [Event.refreshed ⟨1, 0⟩] := by
  have hrequests : ∀ request ∈ returning, request.WellFormed ∧ request.KeepsRefresh := by decide
  obtain ⟨start, hstart, htest⟩ := exists_start (d := single) (g := .free) (s := .standard)
    (p := fun start => match runAll [.beginBatch none] start with
      | .error _ => false
      | .ok (_, editor) =>
        let asked := editor.setBatchRefresh ⟨1, 0⟩
        asked.1.toOption = some () && match runAll returning asked.2 with
          | .error _ => false
          | .ok (_, between) => (between.history.batch.map (·.edits.length)) = some 2 &&
            (editor.pathOf ⟨1, 0⟩).toOption = some [⟨"items", .list 0⟩] &&
            (between.pathOf ⟨1, 0⟩).toOption = some [⟨"items", .list 0⟩]) (by cbv)
  split at htest
  · cases htest
  · rename_i begun editor hbegun
    dsimp only at htest
    rw [Bool.and_eq_true, decide_eq_true_eq] at htest
    obtain ⟨hgranted, htest⟩ := htest
    have hnamed : editor.setBatchRefresh ⟨1, 0⟩ = (.ok (), (editor.setBatchRefresh ⟨1, 0⟩).2) :=
      Prod.ext (toOption_eq_some.mp hgranted) rfl
    split at htest
    · cases htest
    · rename_i answers between hrun
      simp only [Bool.and_eq_true, decide_eq_true_eq] at htest
      obtain ⟨⟨hcount, hbefore⟩, hafter⟩ := htest
      have hreachable : editor.Reachable := ⟨single, .free, .standard, start, [.beginBatch none],
        begun, by decide, Grammar.distinct_free, hstart, by decide, hbegun⟩
      obtain ⟨path, answers', between', batch, hpath, hrun', hbatch, hend⟩ :=
        refreshed_of_endBatch hreachable hnamed hrequests
      rw [hrun] at hrun'
      cases hrun'
      rw [hpath] at hbefore
      cases hbefore
      have hrecorded : batch.edits ≠ [] := by
        rw [hbatch, Option.map_some, Option.some.injEq] at hcount
        exact List.ne_nil_of_length_pos (by omega)
      obtain ⟨last, events, hlast, hjournal, -, hannounced⟩ := hend hrecorded
      rw [(hannounced ⟨1, 0⟩).mpr (toOption_eq_some.mp hafter)] at hjournal
      exact ⟨editor, _, between, last, answers, hreachable, hnamed, hrequests, hrun, hlast,
        hjournal⟩

/-- A state is named, and after an insertion in front of it another one is announced again although
the named one is still there. -/
theorem refreshed_elsewhere : ∃ (start opened named between last : Editor) (reply : Reply),
    ofDocument single .free .standard = .ok start ∧ start.beginBatch none = (.ok (), opened) ∧
      opened.setBatchRefresh ⟨1, 0⟩ = (.ok (), named) ∧
      named.perform (.insert ⟨⟨0, 0⟩, "items", .list 0, .bare "N"⟩) = (.ok reply, between) ∧
      between.store.Live ⟨1, 0⟩ ∧ between.endBatch = (.ok true, last) ∧
      last.store.journal = between.store.journal ++ [Event.refreshed ⟨2, 0⟩] := by
  obtain ⟨start, hstart, htest⟩ := exists_start (d := single) (g := .free) (s := .standard)
    (p := fun start =>
      let begun := start.beginBatch none
      let asked := begun.2.setBatchRefresh ⟨1, 0⟩
      let inserted := asked.2.perform (.insert ⟨⟨0, 0⟩, "items", .list 0, .bare "N"⟩)
      let ended := inserted.2.endBatch
      begun.1.toOption = some () && asked.1.toOption = some () && inserted.1.toOption.isSome &&
        (inserted.2.store.get? ⟨1, 0⟩).isSome && ended.1.toOption = some true &&
        ended.2.store.journal = inserted.2.store.journal ++ [Event.refreshed ⟨2, 0⟩]) (by cbv)
  simp only [Bool.and_eq_true, decide_eq_true_eq] at htest
  obtain ⟨⟨⟨⟨⟨hbegun, hasked⟩, hinserted⟩, hlive⟩, hended⟩, hjournal⟩ := htest
  obtain ⟨reply, hreply⟩ := Option.isSome_iff_exists.mp hinserted
  exact ⟨start, _, _, _, _, reply, hstart, Prod.ext (toOption_eq_some.mp hbegun) rfl,
    Prod.ext (toOption_eq_some.mp hasked) rfl, Prod.ext (toOption_eq_some.mp hreply) rfl,
    Option.isSome_iff_exists.mp hlive, Prod.ext (toOption_eq_some.mp hended) rfl, hjournal⟩

end Editor

end TreeEditor
