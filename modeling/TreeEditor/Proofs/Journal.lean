import TreeEditor.Editor.Observation
import TreeEditor.Proofs.Refusals
import TreeEditor.Proofs.Replay
import TreeEditor.Proofs.EditEvents

/-!
# The journal of a run

The journal of an editor tells how its states came and went, from the making of the editor on, and
whatever was asked of it: commands and batches, edits undone and redone, also requests that were
refused. Of every state it tells the life in order (`Store.life`), and a table that is kept by going
through the journal has the states that are live and the number of blocks of each branch
(`Editor.journal_of_run`). Replaying the states for an observer that joins late makes up the same
table.

A group of edits that is refused leaves no announcement while taking its edits back makes new
states, so a run in which that happens is not told in full. Neither is one in which a cell is used
more often than there are generations.
-/

namespace TreeEditor

open Event (lives balance creations)

/-! ## Tables -/

/-- A table of states and blocks: which states there are, and how many blocks each branch has. -/
structure Census where
  states : Handle → Bool
  blocks : BranchRef → Int

namespace Census

/-- A table with an event noted. -/
def note (census : Census) : Event → Census
  | .stateCreated _ state =>
    { census with states := Function.update census.states state true }
  | .stateDestroyed _ state =>
    { census with states := Function.update census.states state false }
  | .blockCreated branch _ =>
    { census with blocks := Function.update census.blocks branch (census.blocks branch + 1) }
  | .blockDestroyed branch _ =>
    { census with blocks := Function.update census.blocks branch (census.blocks branch - 1) }
  | _ => census

/-- The table that is kept by going through events. -/
def ofEvents (events : List Event) : Census := events.foldl note ⟨fun _ => false, fun _ => 0⟩

/-- The table of the states of a store. -/
def ofStore (store : Store) : Census := ⟨fun h => (store.get? h).isSome, store.blockCount⟩

end Census

/-- Whether a state is there after what an event tells of it. -/
def Life.leaves : Life → Bool → Bool
  | created, _ => true
  | settled, there => there
  | destroyed, _ => false

namespace Census

/-- The states of a table depend on what was told of each of them. -/
theorem states_foldl (events : List Event) (census : Census) (h : Handle) :
    (events.foldl note census).states h =
      (lives h events).foldl (fun there told => told.leaves there) (census.states h) := by
  induction events generalizing census with
  | nil => rfl
  | cons event rest ih =>
    rw [List.foldl_cons, ih, Event.lives_cons, List.foldl_append]
    congr 1
    cases event with
    | stateCreated place state | stateDestroyed place state | stateSettled place state =>
      by_cases hstate : state = h
      · subst hstate
        simp [note, Event.life?, Life.leaves]
      · simp [note, Event.life?, hstate, Ne.symm hstate]
    | _ => rfl

/-- The blocks of a table depend on the balance of what was told of each branch. -/
theorem blocks_foldl (events : List Event) (census : Census) (branch : BranchRef) :
    (events.foldl note census).blocks branch = census.blocks branch + balance branch events := by
  induction events generalizing census with
  | nil => simp
  | cons event rest ih =>
    rw [List.foldl_cons, ih, Event.balance_cons, ← add_assoc]
    congr 1
    cases event with
    | blockCreated site block | blockDestroyed site block =>
      by_cases hsite : site = branch
      · subst hsite
        simp [note, Event.blockChange, sub_eq_add_neg]
      · simp [note, Event.blockChange, hsite, Ne.symm hsite]
    | _ => exact (add_zero _).symm

/-- Events that tell of what a store has lived through make up the table of the store. -/
theorem ofEvents_eq {store : Store} {events : List Event}
    (hlives : ∀ h, (store.get? h).isSome = true → lives h events = [.created, .settled])
    (hgone : ∀ h, (store.get? h).isSome = false →
      lives h events = [] ∨ lives h events = [.created, .settled, .destroyed])
    (hblocks : ∀ branch, balance branch events = store.blockCount branch) :
    ofEvents events = ofStore store := by
  have hstates : (ofEvents events).states = (ofStore store).states := by
    funext h
    rw [ofEvents, states_foldl]
    change _ = (store.get? h).isSome
    cases hlive : (store.get? h).isSome with
    | true =>
      rw [hlives h hlive]
      rfl
    | false => rcases hgone h hlive with htold | htold <;> rw [htold] <;> rfl
  have hcounts : (ofEvents events).blocks = (ofStore store).blocks := by
    funext branch
    rw [ofEvents, blocks_foldl, hblocks]
    exact zero_add _
  exact congrArg₂ mk hstates hcounts

end Census

namespace Editor

variable {editor next editor' : Editor} {request : Request}

/-! ## Turns -/

/-- The states that stand for a document are tidy. -/
theorem Sound.tidy (h : editor.Sound) : editor.store.Tidy := by
  obtain ⟨ν, hmirrors⟩ := h
  exact ⟨hmirrors.standing.arena, fun h state hstate =>
    (hmirrors.standing.settled h state hstate (Set.notMem_empty h)).keys, hmirrors.standing.owned⟩

/-- An edit that is made is told of. -/
theorem recounted_apply (hsound : editor.Sound) {edit : Edit} (hedit : edit.WellFormed)
    (h : editor.apply edit = .ok next) : editor.store.Recounted next.store := by
  have htidy := hsound.tidy
  obtain ⟨ν, hmirrors⟩ := hsound
  exact (enacts_of_apply h).recounted hmirrors htidy hedit

/-- Edits that are made one after the other are told of. -/
theorem recounted_foldlM {edits : List Edit} (hsound : editor.Sound)
    (hedits : ∀ edit ∈ edits, edit.WellFormed) (h : edits.foldlM apply editor = .ok next) :
    editor.store.Recounted next.store := by
  induction edits generalizing editor with
  | nil =>
    cases h
    exact .silent (.refl _)
  | cons edit edits ih =>
    obtain ⟨between, happly, hrest⟩ := bind_eq_ok.mp h
    have hedit := hedits edit List.mem_cons_self
    obtain ⟨document, -, hbetween⟩ := (apply_becomes hsound hedit).of_eq_ok happly
    exact (recounted_apply hsound hedit happly).trans
      (ih hbetween.sound (fun e he => hedits e (List.mem_cons_of_mem _ he)) hrest)

/-- Announcing a state again tells nothing new. -/
theorem recounted_refreshAt (refresh : Option Path) (editor : Editor) :
    editor.store.Recounted (editor.refreshAt refresh).store := by
  have hsame : editor.store.Recounted editor.store := .silent (.refl _)
  unfold refreshAt
  split
  · exact hsame
  · split
    · exact hsame.announce ⟨fun _ => rfl, fun _ => rfl⟩ fun _ => rfl
    · exact hsame

/-- Recording an edit tells nothing new. -/
theorem recounted_recordEdit (edit : Edit) (refresh : Option Path) (editor : Editor) :
    editor.store.Recounted (editor.recordEdit edit refresh).store := by
  unfold recordEdit
  split
  · exact .silent (.refl _)
  · exact recounted_refreshAt refresh editor

/-- An edit that stems from recorded edits or comes with a request is well-formed. -/
theorem Stems.wellFormed (h : editor.Steady) (hrequest : request.WellFormed) {edit : Edit}
    (hstems : Stems editor request edit) : edit.WellFormed :=
  hstems.everywhere h.recorded fun _ => h.brings hrequest

end Editor

/-- A request makes a group of edits or none of them. -/
def Request.makesGroup : Request → Bool
  | undo | redo | execute _ => true
  | _ => false

namespace Editor

variable {editor next editor' : Editor} {request : Request}

/-- A request that asks for edits makes a group of them. -/
theorem Asks.makesGroup {edits : List Edit} (hasks : Asks editor request edits) :
    request.makesGroup = true := by
  cases hasks <;> rfl

/-- A turn is told of, unless a group of edits is refused on account of one of them. -/
theorem Turn.recounted {answer : Except Refusal Reply}
    (turn : Turn editor request (answer.mapError .refused) editor') (h : editor.Steady)
    (hrequest : request.WellFormed)
    (hanswer : request.makesGroup = true → ∀ reason, answer = .error reason → reason = .batchOpen) :
    editor.store.Recounted editor'.store := by
  have hsame : editor.store.Recounted editor.store := .silent (.refl _)
  generalize hresult : answer.mapError Failure.refused = result at turn
  cases turn with
  | refused | batchOpen | noBatch | noState | idle | began | dropped | named => exact hsame
  | @committed command edit refresh next hplanned hmade =>
    exact (recounted_apply h.sound (h.brings hrequest ⟨refresh, hplanned⟩) hmade).trans
      (recounted_recordEdit edit refresh next)
  | @undone group rest next hclosed hdone hmade =>
    exact (recounted_foldlM h.sound
      (fun e he => ((Asks.undo hclosed hdone).stems e he).wellFormed h hrequest) hmade).trans
      (recounted_refreshAt group.refresh next)
  | @redone group rest next hclosed hundone hmade =>
    exact (recounted_foldlM h.sound
      (fun e he => ((Asks.redo hclosed hundone).stems e he).wellFormed h hrequest) hmade).trans
      (recounted_refreshAt group.refresh next)
  | @executed group next hclosed hmade =>
    exact (recounted_foldlM h.sound
      (fun e he => ((Asks.execute hclosed).stems e he).wellFormed h hrequest) hmade).trans
      (recounted_refreshAt group.refresh next)
  | @ended batch group hopened hedits => exact recounted_refreshAt group.refresh editor
  | @aborted batch back hopened hback =>
    have hedits : ∀ e ∈ batch.edits.reverse.map Edit.invert, e.WellFormed := fun e he => by
      obtain ⟨source, hsource, rfl⟩ := List.mem_map.mp he
      exact (h.recorded source (History.mem_edits.mpr
        (.inr (.inr ⟨batch, hopened, List.mem_reverse.mp hsource⟩)))).invert
    -- The edits are taken back on the editor without the batch, which has the same states.
    have hmade := recounted_foldlM (h.sound.history { editor.history with batch := none }) hedits
      hback
    exact hmade
  | stuck => cases answer <;> cases hresult
  | @failed request edits failure after hasks hattempt =>
    -- An edit is never refused as an open batch refuses a group.
    exfalso
    cases hattempt with
    | broken => cases answer <;> cases hresult
    | @refused made rest edit between back reason hparts hmade hrefused hback =>
      have hwellFormed : ∀ e ∈ edits, e.WellFormed := fun e he =>
        (hasks.stems e he).wellFormed h hrequest
      subst hparts
      obtain ⟨-, hsound, -⟩ := foldlM_apply_eq_ok h.sound
        (fun e he => hwellFormed e (List.mem_append_left _ he)) hmade
      have hreason := ofEdit_of_refused hsound
        (hwellFormed edit (List.mem_append_right _ List.mem_cons_self)) hrefused
      cases answer with
      | ok reply => cases hresult
      | error other =>
        cases hresult
        rw [hanswer hasks.makesGroup reason rfl] at hreason
        cases hreason

/-! ## Runs -/

variable {requests : List Request} {answers : List (Except Refusal Reply)}

/-- No group of edits was refused on account of one of them. -/
def Untroubled (requests : List Request) (answers : List (Except Refusal Reply)) : Prop :=
  ∀ asked ∈ requests.zip answers, asked.1.makesGroup = true → ∀ reason,
    asked.2 = .error reason → reason = .batchOpen

/-- A run is told of. -/
theorem recounted_runAll (h : editor.Steady) (hrequests : ∀ request ∈ requests, request.WellFormed)
    (hrun : runAll requests editor = .ok (answers, editor'))
    (hanswers : Untroubled requests answers) : editor.store.Recounted editor'.store := by
  induction requests generalizing editor answers with
  | nil =>
    cases hrun
    exact .silent (.refl _)
  | cons request rest ih =>
    obtain ⟨⟨answer, next⟩, hreturned, hrun⟩ := bind_eq_ok.mp hrun
    obtain ⟨⟨others, last⟩, hrest, hlast⟩ := bind_eq_ok.mp hrun
    cases hlast
    have hrequest := hrequests request List.mem_cons_self
    -- The turn is told of, and it leaves an editor from which the rest of the run is.
    have turn := turn_of_returned h hrequest hreturned
    exact (turn.recounted h hrequest (hanswers (request, answer) List.mem_cons_self)).trans
      (ih (turn.steady h hrequest (mapError_ne_broken answer))
        (fun r hr => hrequests r (List.mem_cons_of_mem _ hr)) hrest
        fun asked hasked => hanswers asked (List.mem_cons_of_mem _ hasked))

/-- The making of an editor is told of. -/
theorem recounted_ofDocument {document : Node} {grammar : Grammar} {settings : Settings}
    (hdocument : document.WellFormed) (hgrammar : grammar.Distinct)
    (h : ofDocument document grammar settings = .ok editor) :
    Store.empty.Recounted editor.store := by
  obtain ⟨_, -, h⟩ := bind_eq_ok.mp h
  obtain ⟨⟨root, store⟩, hcreate, h⟩ := bind_eq_ok.mp h
  cases h
  have htidy : Store.empty.Tidy :=
    { arena := Arena.sound_empty
      keys := fun h state hstate => by cases hstate
      owned := Store.owned_empty }
  obtain ⟨htold, -⟩ := Store.tells_create (fun grow hgrow => by
    cases hgrow
    exact Grammar.told_growth hgrammar hdocument) htidy hcreate
  exact htold

/-- The journal of a run that started from a document tells of every state, in order, that it was
created, that it was settled and, unless it is live, that it was destroyed; and of no state more
than that. The table kept by going through it has the live states and the number of blocks of every
branch, and so has the table of an observer that joins late. This is so when no group was refused on
account of one of its edits and no cell was used more often than it has generations. -/
theorem journal_of_run {document : Node} {grammar : Grammar} {settings : Settings} {start : Editor}
    (hdocument : document.WellFormed) (hgrammar : grammar.Distinct)
    (hstart : ofDocument document grammar settings = .ok start)
    (hrequests : ∀ request ∈ requests, request.WellFormed)
    (hrun : runAll requests start = .ok (answers, editor))
    (hanswers : Untroubled requests answers)
    (hcells : ∀ cell, creations cell editor.store.journal.toList ≤ 2 ^ 32) :
    (∀ h, lives h editor.store.journal.toList = editor.store.life h) ∧
      Census.ofEvents editor.store.journal.toList = .ofStore editor.store ∧
      ∃ events, editor.attachEvents = .ok events ∧
        Census.ofEvents events = .ofStore editor.store := by
  have hsteady := steady_ofDocument hdocument hgrammar hstart
  obtain ⟨events, haccounts⟩ := (recounted_ofDocument hdocument hgrammar hstart).trans
    (recounted_runAll hsteady hrequests hrun hanswers)
  have hjournal : editor.store.journal.toList = events := haccounts.journal
  rw [hjournal] at hcells ⊢
  -- No cell of the empty store has been used.
  have hroom : Store.empty.Room events := fun cell => by
    rw [show Store.empty.used cell = 0 from rfl, Nat.zero_add]
    exact hcells cell
  have hlives : ∀ h, lives h events = editor.store.life h := fun h =>
    (haccounts.lives hroom h).symm
  have hblocks : ∀ branch, balance branch events = editor.store.blockCount branch := by
    intro branch
    have hcount := haccounts.blocks branch
    rw [show Store.empty.blockCount branch = 0 from rfl] at hcount
    simpa using hcount.symm
  obtain ⟨ν, hmirrors⟩ := (steady_runAll hsteady hrequests hrun).sound
  -- A late observer is told of the live states only, and of those the same.
  obtain ⟨replayed, hreplayed, hlives', hblocks'⟩ := hmirrors.standing.covers_creationEvents
  refine ⟨hlives, Census.ofEvents_eq (fun h hlive => ?_) (fun h hgone => ?_) hblocks, replayed,
    hreplayed, Census.ofEvents_eq (fun h hlive => ?_) (fun h hgone => .inl ?_) hblocks'⟩
  · rw [hlives, Store.life, if_pos hlive]
  · rw [hlives, Store.life, hgone]
    cases editor.store.arena.isStale h <;> simp
  · rw [hlives', if_pos hlive]
  · rw [hlives', hgone]
    rfl

/-- A run over the sample document in which blocks come and go: a block is inserted, split and
removed, in and outside of a batch that is aborted; a command is refused, and so is a group because
the batch is open. -/
def changefulRun : List Request :=
  [.command (.insertBlock ⟨⟨0, 0⟩, "groups"⟩ 0 ⟨.blank, [.bare "P", .bare "Q"]⟩),
    .command (.splitBlock ⟨⟨0, 0⟩, "groups"⟩ 0 1),
    .command (.remove (.within ⟨0, 0⟩ "items" (.list 7))),
    .beginBatch none, .command (.removeBlock ⟨⟨0, 0⟩, "groups"⟩ 0), .undo, .abortBatch,
    .undo, .undo, .redo, .command (.unassign (.within ⟨0, 0⟩ "more" .optional))]

/-- What such a run announces makes up the table of the states that it leaves. -/
theorem journal_of_changefulRun : Node.sample.WellFormed ∧ Grammar.free.Distinct ∧
    (∀ request ∈ changefulRun, request.WellFormed) ∧
    ∃ start answers last, ofDocument .sample .free .standard = .ok start ∧
      runAll changefulRun start = .ok (answers, last) ∧ Untroubled changefulRun answers ∧
      (∀ cell, creations cell last.store.journal.toList ≤ 2 ^ 32) ∧
      Census.ofEvents last.store.journal.toList = .ofStore last.store := by
  have hdocument := Node.wellFormed_sample
  have hgrammar := Grammar.distinct_free
  have hrequests : ∀ request ∈ changefulRun, request.WellFormed := by decide
  obtain ⟨start, hstart, hrun⟩ := exists_start (d := .sample) (g := .free) (s := .standard)
    (p := fun start =>
      match runAll changefulRun start with
      | .ok (answers, last) => last.store.journal.size ≤ 2 ^ 32 &&
        (changefulRun.zip answers).all fun asked => !asked.1.makesGroup ||
          match asked.2 with
          | .ok _ => true
          | .error reason => reason = .batchOpen
      | .error _ => false) (by cbv)
  cases hfound : runAll changefulRun start with
  | error breach =>
    rw [hfound] at hrun
    cases hrun
  | ok found =>
    obtain ⟨answers, last⟩ := found
    rw [hfound] at hrun
    obtain ⟨hsize, hall⟩ := Bool.and_eq_true_iff.mp hrun
    have hanswers : Untroubled changefulRun answers := by
      intro asked hasked hgroup reason hreason
      have := List.all_eq_true.mp hall asked hasked
      rw [hgroup, hreason] at this
      exact of_decide_eq_true this
    have hcells : ∀ cell, creations cell last.store.journal.toList ≤ 2 ^ 32 := fun cell =>
      List.countP_le_length.trans (of_decide_eq_true hsize)
    exact ⟨hdocument, hgrammar, hrequests, start, answers, last, hstart, hfound, hanswers, hcells,
      (journal_of_run hdocument hgrammar hstart hrequests hfound hanswers hcells).2.1⟩

end Editor

end TreeEditor
