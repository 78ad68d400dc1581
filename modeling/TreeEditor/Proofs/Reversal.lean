import TreeEditor.Json.Printer
import TreeEditor.Proofs.Runs

/-!
# Groups that are refused and groups that are undone

When an edit of a group is refused, those before it are taken back. In a filled document that goes
through and the document is the same as before (`Editor.execute_of_refused`). A group that was made
can be undone and redone; when each of its edits recorded what it found, undoing restores the very
document, and redoing makes of it what the group had made (`Editor.undo_of_execute`). An edit is
also made when it recorded a node whose properties are in another order; then they are in that order
once it is undone (`Editor.undo_of_reordered`).
-/

namespace TreeEditor.Editor

variable {editor editor' between : Editor} {edits made : List Edit} {group : Group}

/-- Edits of a filled document that were made can be taken back, and the document that comes back
is the same. -/
theorem exists_back (hsound : editor.Sound) (hfilled : editor.document.Filled)
    (hmade : ∀ edit ∈ made, edit.WellFormed ∧ edit.Filled)
    (h : made.foldlM apply editor = .ok between) :
    ∃ back, (made.reverse.map Edit.invert).foldlM apply between = .ok back ∧ back.Sound ∧
      back.document.Same editor.document ∧ editor.Alike back := by
  obtain ⟨ν, hmirrors⟩ := hsound
  have hwell : ∀ edit ∈ made, edit.WellFormed := fun edit hedit => (hmade edit hedit).1
  obtain ⟨heffects, hbetween, halike⟩ := foldlM_apply_eq_ok ⟨ν, hmirrors⟩ hwell h
  obtain ⟨document, hback, hsame⟩ := Edit.effects_invert_same hmirrors.wellFormed hmirrors.valid
    hfilled hmade heffects
  rw [← halike.grammar] at hback
  obtain ⟨back, hreverted, hbecomes⟩ :=
    exists_of_effects hbetween (Edit.wellFormed_inverses hwell) hback
  exact ⟨back, hreverted, hbecomes.sound, hbecomes.document ▸ hsame, halike.trans hbecomes.alike⟩

/-- The first edit that cannot be made is refused, and its refusal is what making all comes to. -/
theorem exists_refused (hsound : editor.Sound) (hedits : ∀ edit ∈ edits, edit.WellFormed)
    {failure : Failure} (h : edits.foldlM apply editor = .error failure) :
    ∃ made edit rest between reason, edits = made ++ edit :: rest ∧
      made.foldlM apply editor = .ok between ∧ between.apply edit = .error (.refused reason) ∧
        failure = .refused reason := by
  rcases foldlM_apply_cases hsound hedits with
    ⟨last, hall⟩ | ⟨made, edit, rest, between, reason, rfl, hmade, hrefused⟩
  · rw [hall] at h
    cases h
  · refine ⟨made, edit, rest, between, reason, rfl, hmade, hrefused, ?_⟩
    rw [List.foldlM_append, hmade, ok_bind, List.foldlM_cons, hrefused] at h
    cases h
    rfl

/-! ## Refused groups -/

/-- A group of which an edit is refused is refused for the reason of the first such edit. The
document is the same as before, what was recorded and what was announced stays as it was, and the
check finds nothing. -/
theorem execute_of_refused (hreachable : editor.Reachable) (hclosed : editor.history.batch = none)
    (hdocument : editor.document.Filled) (hgroup : (Request.execute group).WellFormed)
    (hfilled : (Request.execute group).Filled) {failure : Failure}
    (hrefused : group.edits.foldlM apply editor = .error failure) :
    ∃ reason after, failure = .refused reason ∧
      editor.execute group = (.error (.refused reason), after) ∧
        after.document.same editor.document = true ∧ after.history = editor.history ∧
          after.verify = .ok () ∧ after.store.journal = editor.store.journal := by
  have hsound := hreachable.steady.sound
  have hedits : ∀ edit ∈ group.edits, edit.WellFormed ∧ edit.Filled := fun edit hedit =>
    ⟨fun node hnode => hgroup node (List.mem_flatMap_of_mem hedit hnode),
      fun node hnode => hfilled node (List.mem_flatMap_of_mem hedit hnode)⟩
  obtain ⟨made, edit, rest, between, reason, hparts, hmade, hedit, hreason⟩ :=
    exists_refused hsound (fun edit hedit => (hedits edit hedit).1) hrefused
  obtain ⟨back, hback, hbackSound, hsame, halike⟩ := exists_back hsound hdocument
    (fun e he => hedits e (hparts ▸ List.mem_append_left _ he)) hmade
  refine ⟨reason, { back with store := { back.store with journal := editor.store.journal } },
    hreason, ?_, hsame, halike.history, (hbackSound.journal _).verify, rfl⟩
  rw [execute, History.inBatch, hclosed, Option.isSome_none, if_neg Bool.false_ne_true,
    Group.redoEdits, hparts, applyAll_of_refused hmade hedit hback]

/-- A group whose last edit finds nothing, and whose first edits are of all kinds that remove
states. -/
def doomed : Group :=
  .plain (.remove ⟨[], "items"⟩ (.list 0) (.bare "A"))
    [.replace ⟨[], "body"⟩ .placeholder (.bare "Body") (.bare "Head"),
      .unassign ⟨[], "more"⟩ (.bare "D") none, .mergeBlocks ⟨[], "groups"⟩ 0 2 .blank,
      .removeBlock ⟨[], "groups"⟩ 0 (.plain [.bare "X", .bare "Y", .bare "Z"]),
      .remove ⟨[], "items"⟩ (.list 7) (.bare "A")]

/-- Such a group leaves the sample document as it was. -/
theorem execute_doomed :
    ∃ (editor : Editor) (failure : Failure), editor.Reachable ∧ editor.history.batch = none ∧
      editor.document.Filled ∧ (Request.execute doomed).WellFormed ∧
      (Request.execute doomed).Filled ∧ doomed.edits.foldlM apply editor = .error failure ∧
      ∃ reason after, failure = .refused reason ∧
        editor.execute doomed = (.error (.refused reason), after) ∧
          after.document.same editor.document = true ∧ after.history = editor.history ∧
            after.verify = .ok () ∧ after.store.journal = editor.store.journal := by
  have hwell : (Request.execute doomed).WellFormed := by decide
  have hfilled : (Request.execute doomed).Filled := by decide
  obtain ⟨start, hstart, hfails⟩ := exists_start (d := .sample) (g := .free) (s := .standard)
    (p := fun start => (doomed.edits.foldlM apply start).toOption.isNone) (by cbv)
  obtain ⟨-, -, hdocument, -, hhistory⟩ :=
    mirrors_ofDocument Node.wellFormed_sample Grammar.distinct_free hstart
  have hreachable := reachable_ofDocument Node.wellFormed_sample Grammar.distinct_free hstart
  have hclosed : start.history.batch = none := by rw [hhistory]; rfl
  have hstartFilled : start.document.Filled := by rw [hdocument]; decide
  cases hrefused : doomed.edits.foldlM apply start with
  | ok last => rw [hrefused] at hfails; cases hfails
  | error failure =>
    exact ⟨start, failure, hreachable, hclosed, hstartFilled, hwell, hfilled, hrefused,
      execute_of_refused hreachable hclosed hstartFilled hwell hfilled hrefused⟩

/-! ## Groups that are undone and redone -/

/-- A group whose edits can be taken back is undone. -/
theorem undo_eq_ok {rest : List Group} (hsound : editor.Sound)
    (hedits : ∀ edit ∈ group.edits, edit.WellFormed) (hclosed : editor.history.batch = none)
    (hdone : editor.history.done = group :: rest)
    (hback : group.undoEdits.foldlM apply editor = .ok editor') :
    editor.undo = (.ok true, { editor'.refreshAt group.refresh with
      history := ⟨rest, group :: editor.history.undone, editor.history.limit, none⟩ }) := by
  rw [undo, History.inBatch, hclosed, Option.isSome_none, if_neg Bool.false_ne_true,
    History.popDone, hdone]
  dsimp only
  rw [applyAll_of_ok hback]
  dsimp only
  rw [checked_eq (hsound.finish (Edit.wellFormed_inverses hedits) hback _), History.pushUndone,
    hclosed]

/-- A group whose edits can be made again is redone. -/
theorem redo_eq_ok {rest : List Group} (hsound : editor.Sound)
    (hedits : ∀ edit ∈ group.edits, edit.WellFormed) (hclosed : editor.history.batch = none)
    (hundone : editor.history.undone = group :: rest)
    (hforth : group.redoEdits.foldlM apply editor = .ok editor') :
    editor.redo = (.ok true, { editor'.refreshAt group.refresh with
      history := ⟨group :: editor.history.done, rest, editor.history.limit, none⟩ }) := by
  rw [redo, History.inBatch, hclosed, Option.isSome_none, if_neg Bool.false_ne_true,
    History.popUndone, hundone]
  dsimp only
  rw [applyAll_of_ok hforth]
  dsimp only
  rw [checked_eq (hsound.finish hedits hforth _), History.pushDone, hclosed]

/-- Announcing a state again leaves the document alone. -/
theorem document_refreshAt (editor : Editor) (refresh : Option Path) :
    (editor.refreshAt refresh).document = editor.document := by
  obtain ⟨journal, heq⟩ := refreshAt_eq refresh editor
  rw [heq]

/-- Announcing a state again leaves the grammar alone. -/
theorem grammar_refreshAt (editor : Editor) (refresh : Option Path) :
    (editor.refreshAt refresh).grammar = editor.grammar := by
  obtain ⟨journal, heq⟩ := refreshAt_eq refresh editor
  rw [heq]

/-- The newest group is never the one that is forgotten. -/
theorem exists_done_push (group : Group) (history : History) :
    ∃ rest, (history.push group).done = group :: rest := by
  unfold History.push History.trim
  cases hdone : history.done with
  | nil =>
    refine ⟨[], if_neg fun h => ?_⟩
    rw [List.length_singleton] at h
    omega
  | cons newest rest =>
    dsimp only
    split
    · exact ⟨(newest :: rest).dropLast, rfl⟩
    · exact ⟨newest :: rest, rfl⟩

/-- A group that was made was made edit by edit. -/
theorem exists_of_execute (hsteady : editor.Steady)
    (hedits : ∀ edit ∈ group.edits, edit.WellFormed)
    (h : editor.execute group = (.ok (), editor')) :
    ∃ next, editor.history.batch = none ∧ group.redoEdits.foldlM apply editor = .ok next ∧
      editor' = { next.refreshAt group.refresh with history := editor.history.push group } := by
  have turn := execute_turn hsteady hedits
  rw [run, h] at turn
  cases turn with
  | executed hclosed hmade => exact ⟨_, hclosed, hmade, rfl⟩

/-- A group of edits each of which records what it finds can be undone once it is made, which gives
the very document that was there before. Redoing it then gives what the group had made of it. -/
theorem undo_of_execute (hreachable : editor.Reachable)
    (hgroup : (Request.execute group).WellFormed)
    (hfaithful : Edit.AllFaithful editor.grammar group.edits editor.document)
    (hexecute : editor.execute group = (.ok (), editor')) :
    ∃ undone redone, editor'.undo = (.ok true, undone) ∧ undone.document = editor.document ∧
      undone.redo = (.ok true, redone) ∧ redone.document = editor'.document := by
  have hsteady := hreachable.steady
  obtain ⟨ν, hmirrors⟩ := hsteady.sound
  have hedits : ∀ edit ∈ group.edits, edit.WellFormed := fun edit hedit node hnode =>
    hgroup node (List.mem_flatMap_of_mem hedit hnode)
  obtain ⟨next, hclosed, hmade, rfl⟩ := exists_of_execute hsteady hedits hexecute
  obtain ⟨heffects, hnext, halike⟩ := foldlM_apply_eq_ok hsteady.sound hedits hmade
  have hjoins := Edit.joins_of_faithful hmirrors.wellFormed hmirrors.valid hedits hfaithful heffects
  obtain ⟨rest, hdone⟩ := exists_done_push group editor.history
  -- Undoing makes the inverses of the edits, in the opposite order, of what the group has made.
  have hafter := (hnext.refreshAt group.refresh).history (editor.history.push group)
  obtain ⟨back, hback, hundone⟩ := exists_of_effects hafter (Edit.wellFormed_inverses hedits)
    (d := editor.document)
    (by rw [document_refreshAt, grammar_refreshAt, halike.grammar]; exact hjoins.back)
  have hundo := undo_eq_ok hafter hedits hclosed hdone hback
  -- Redoing makes the edits themselves of the document that came back.
  have hbefore := (hundone.sound.refreshAt group.refresh).history
    ⟨rest, group :: (editor.history.push group).undone, (editor.history.push group).limit, none⟩
  obtain ⟨last, hlast, hredone⟩ := exists_of_effects hbefore hedits (d := next.document)
    (by
      rw [document_refreshAt, grammar_refreshAt, hundone.document, hundone.alike.grammar]
      dsimp only
      rw [grammar_refreshAt, halike.grammar]
      exact heffects)
  refine ⟨_, _, hundo, ?_, redo_eq_ok hbefore hedits rfl rfl hlast, ?_⟩
  · rw [document_refreshAt, hundone.document]
  · rw [document_refreshAt, hredone.document, document_refreshAt]

/-- Two edits that record what they find in the sample document. -/
def recorded : Group :=
  .plain (.remove ⟨[], "items"⟩ (.list 0) (.bare "A"))
    [.setValue [] "title" (.text "one") (.text "two")]

/-- Such a group can be undone and redone. -/
theorem undo_of_recorded :
    ∃ editor editor' : Editor, editor.Reachable ∧ (Request.execute recorded).WellFormed ∧
      Edit.AllFaithful editor.grammar recorded.edits editor.document ∧
      editor.execute recorded = (.ok (), editor') ∧
      ∃ undone redone, editor'.undo = (.ok true, undone) ∧ undone.document = editor.document ∧
        undone.redo = (.ok true, redone) ∧ redone.document = editor'.document := by
  have hwell : (Request.execute recorded).WellFormed := by decide
  obtain ⟨start, hstart, hmade⟩ := exists_start (d := .sample) (g := .free) (s := .standard)
    (p := fun start => (start.execute recorded).1.toOption.isSome) (by cbv)
  obtain ⟨-, hgrammar, hdocument, -, -⟩ :=
    mirrors_ofDocument Node.wellFormed_sample Grammar.distinct_free hstart
  have hreachable := reachable_ofDocument Node.wellFormed_sample Grammar.distinct_free hstart
  have hfaithful : Edit.AllFaithful start.grammar recorded.edits start.document := by
    rw [hgrammar, hdocument]
    refine ⟨fun owner P hreach htarget => ?_, fun next hnext => ⟨fun owner P hreach htarget => ?_,
      fun _ _ => trivial⟩⟩
    · cases hreach
      cases htarget
      rfl
    · cases hnext
      cases hreach
      cases htarget
      rfl
  cases hexecute : start.execute recorded with
  | mk result after =>
    rw [hexecute] at hmade
    cases result with
    | error failure => cases hmade
    | ok =>
      exact ⟨start, after, hreachable, hwell, hfaithful, hexecute,
        undo_of_execute hreachable hwell hfaithful hexecute⟩

/-- A document with a node that has two properties. -/
def pair : Node :=
  .mk "Root" [("items", .list [.mk "A" [("x", .value (.integer 1)), ("y", .value (.integer 2))]])]

/-- An edit that removes that node and has recorded its properties in the opposite order. -/
def reordering : Group :=
  .single (.remove ⟨[], "items"⟩ (.list 0)
    (.mk "A" [("y", .value (.integer 2)), ("x", .value (.integer 1))])) none none

/-- Whether undoing a group that was just made gives a document with another text. -/
def misses (group : Group) (editor : Editor) : Bool :=
  match editor.execute group with
  | (.ok (), after) =>
    match after.undo with
    | (.ok true, undone) => undone.document.toJson.compact ≠ editor.document.toJson.compact
    | _ => false
  | _ => false

/-- What such an edit has removed comes back with its properties in the recorded order. -/
theorem undo_of_reordered :
    ∃ start after undone, ofDocument pair .free .standard = .ok start ∧
      start.execute reordering = (.ok (), after) ∧ after.undo = (.ok true, undone) ∧
        undone.document.toJson.compact ≠ start.document.toJson.compact := by
  obtain ⟨start, hstart, hmisses⟩ := exists_start (d := pair) (g := .free) (s := .standard)
    (p := misses reordering) (by cbv)
  unfold misses at hmisses
  split at hmisses
  · rename_i after hexecute
    split at hmisses
    · rename_i undone hundo
      exact ⟨start, after, undone, hstart, hexecute, hundo, of_decide_eq_true hmisses⟩
    · cases hmisses
  · cases hmisses

end TreeEditor.Editor
