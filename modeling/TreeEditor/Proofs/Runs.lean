import TreeEditor.Proofs.Construction
import TreeEditor.Proofs.Frame
import TreeEditor.Proofs.Requests

/-!
# Runs

Requests are carried out one after the other (`Editor.runAll`); a run ends without a result where
the editor breaks down. Whatever is asked, and whether it is granted or refused, the states go on
standing for the document (`Editor.Turn.steady`).
-/

namespace TreeEditor

/-! ## Recorded edits -/

namespace History

variable {history : History} {edit : Edit}

/-- The recorded edits are those of the groups and of the open batch. -/
theorem mem_edits : edit ∈ history.edits ↔ (∃ group ∈ history.done, edit ∈ group.edits) ∨
    (∃ group ∈ history.undone, edit ∈ group.edits) ∨
      ∃ batch, history.batch = some batch ∧ edit ∈ batch.edits := by
  simp only [History.edits, List.mem_append, List.mem_flatMap, Option.mem_toList, or_assoc]

/-- Forgetting the oldest group leaves the others. -/
theorem mem_of_mem_trim {limit : Nat} {groups : List Group} {group : Group}
    (h : group ∈ trim limit groups) : group ∈ groups := by
  unfold trim at h
  split at h
  · exact List.mem_of_mem_dropLast h
  · exact h

/-- Adding a group records its edits. -/
theorem mem_edits_push {group : Group} (h : edit ∈ (history.push group).edits) :
    edit ∈ history.edits ∨ edit ∈ group.edits := by
  rw [mem_edits] at h ⊢
  rcases h with ⟨g, hg, hedit⟩ | ⟨g, hg, -⟩ | hbatch
  · rcases List.mem_cons.mp (mem_of_mem_trim hg) with rfl | hg
    · exact .inr hedit
    · exact .inl (.inl ⟨g, hg, hedit⟩)
  · cases hg
  · exact .inl (.inr (.inr hbatch))

end History

/-- A request brings an edit along or is planned as one. -/
def Request.Brings (editor : Editor) (request : Request) (edit : Edit) : Prop :=
  match request with
  | .command asked => ∃ refresh, editor.plan asked = .ok (edit, refresh)
  | .execute asked => edit ∈ asked.edits
  | _ => False

namespace Editor

variable {editor editor' : Editor} {request : Request} {result : Except Failure Reply}

/-- Announcing a state again leaves the history alone. -/
theorem history_refreshAt (editor : Editor) (refresh : Option Path) :
    (editor.refreshAt refresh).history = editor.history := by
  obtain ⟨journal, heq⟩ := refreshAt_eq refresh editor
  rw [heq]

/-- Recording an edit adds it to the recorded ones. -/
theorem mem_edits_recordEdit {made edit : Edit} {refresh : Option Path}
    (h : edit ∈ (editor.recordEdit made refresh).history.edits) :
    edit ∈ editor.history.edits ∨ edit = made := by
  unfold recordEdit at h
  cases hbatch : editor.history.batch with
  | none =>
    rw [hbatch] at h
    dsimp only at h
    rw [history_refreshAt] at h
    exact (History.mem_edits_push h).imp_right List.mem_singleton.mp
  | some batch =>
    rw [hbatch] at h
    rw [History.mem_edits] at h ⊢
    rcases h with hdone | hundone | ⟨_, hrecorded, hmem⟩
    · exact .inl (.inl hdone)
    · exact .inl (.inr (.inl hundone))
    · cases hrecorded
      rcases List.mem_append.mp hmem with hmem | hmem
      · exact .inl (.inr (.inr ⟨batch, hbatch, hmem⟩))
      · exact .inr (List.mem_singleton.mp hmem)

/-- The edits that are recorded after a turn were recorded before or came with the request. -/
theorem Turn.recorded (turn : Turn editor request result editor')
    (hreturns : ∀ breach, result ≠ .error (.broken breach)) {edit : Edit}
    (hedit : edit ∈ editor'.history.edits) :
    edit ∈ editor.history.edits ∨ request.Brings editor edit := by
  cases turn with
  | refused | batchOpen | noBatch | noState | idle => exact .inl hedit
  | @committed command made refresh next hplanned hmade =>
    rcases mem_edits_recordEdit hedit with hmem | rfl
    · exact .inl ((record_apply hmade).1 ▸ hmem)
    · exact .inr ⟨refresh, hplanned⟩
  | executed hclosed hmade => exact History.mem_edits_push hedit
  | failed hasks hattempt =>
    cases hattempt with
    | refused hparts hmade hrefused hback =>
      refine .inl ?_
      rwa [show _ = _ from (record_foldlM_apply hback).1, (record_foldlM_apply hmade).1] at hedit
    | broken => exact absurd rfl (hreturns _)
  | stuck => exact absurd rfl (hreturns _)
  | undone | redone | began | dropped | named =>
    -- What is on the history is rearranged: no edit is new.
    rw [History.mem_edits] at hedit ⊢
    grind
  | ended hopened hedits =>
    rw [History.mem_edits]
    have := History.mem_edits_push hedit
    rw [History.mem_edits] at this
    grind
  | aborted hopened hback =>
    rw [(record_foldlM_apply hback).1] at hedit
    rw [History.mem_edits] at hedit ⊢
    grind

/-- What holds everywhere in the document and in what a request brings along holds everywhere in the
edits that come with the request. -/
theorem everywhere_brings {p : Node → Prop} (h : editor.Sound) (hp : editor.document.Everywhere p)
    (hrequest : ∀ node ∈ request.nodes, node.Everywhere p) {edit : Edit}
    (hbrings : request.Brings editor edit) : ∀ node ∈ edit.nodes, node.Everywhere p := by
  cases request with
  | command asked =>
    obtain ⟨ν, hmirrors⟩ := h
    obtain ⟨refresh, hplanned⟩ := hbrings
    exact ((plan_grants hmirrors asked).of_eq_ok hplanned).nodes p hp hrequest
  | execute asked =>
    exact fun node hnode => hrequest node (List.mem_flatMap_of_mem hbrings hnode)
  | _ => exact hbrings.elim

/-- The edits that come with a well-formed request are well-formed. -/
theorem Steady.brings (h : editor.Steady) (hrequest : request.WellFormed) {edit : Edit}
    (hbrings : request.Brings editor edit) : edit.WellFormed := by
  obtain ⟨ν, hmirrors⟩ := h.sound
  exact everywhere_brings h.sound hmirrors.wellFormed hrequest hbrings

/-- The nodes of an edit are those of recorded edits and of edits that come with a request. -/
def Stems (editor : Editor) (request : Request) (edit : Edit) : Prop :=
  ∀ node ∈ edit.nodes, ∃ source, (source ∈ editor.history.edits ∨ request.Brings editor source) ∧
    node ∈ source.nodes

/-- The inverse of an edit has its nodes from where the edit has them. -/
theorem Stems.inverses {edits : List Edit} (h : ∀ edit ∈ edits, Stems editor request edit) :
    ∀ edit ∈ edits.reverse.map Edit.invert, Stems editor request edit := fun edit hedit => by
  obtain ⟨source, hsource, rfl⟩ := List.mem_map.mp hedit
  exact fun node hnode =>
    h source (List.mem_reverse.mp hsource) node (Edit.mem_nodes_invert.mp hnode)

/-- What holds everywhere in the recorded edits and in those that come with a request holds
everywhere in the edits that stem from them. -/
theorem Stems.everywhere {p : Node → Prop} {edit : Edit} (h : Stems editor request edit)
    (hrecorded : ∀ source ∈ editor.history.edits, ∀ node ∈ source.nodes, node.Everywhere p)
    (hbrings : ∀ source, request.Brings editor source → ∀ node ∈ source.nodes, node.Everywhere p) :
    ∀ node ∈ edit.nodes, node.Everywhere p := fun node hnode => by
  obtain ⟨source, hsource, hmem⟩ := h node hnode
  exact hsource.elim (hrecorded source · node hmem) (hbrings source · node hmem)

/-- A turn that returns makes edits one after the other that stem from recorded edits and from those
that come with the request. -/
structure Course (editor : Editor) (request : Request) (editor' : Editor) : Prop where
  sound : editor'.Sound
  grammar : editor'.grammar = editor.grammar
  settings : editor'.settings = editor.settings
  effects : ∃ edits, (∀ edit ∈ edits, Stems editor request edit) ∧
    Edit.effects editor.grammar edits editor.document = some editor'.document

/-- A turn that leaves the document and the states alone. -/
theorem Course.rest (hsound : editor.Sound) (history : History) :
    Course editor request { editor with history } :=
  ⟨hsound.history history, rfl, rfl, [], nofun, rfl⟩

/-- A turn that makes edits. -/
theorem Course.made {edits : List Edit} {next : Editor} (h : editor.Steady)
    (hrequest : request.WellFormed) (hedits : ∀ edit ∈ edits, Stems editor request edit)
    (hmade : edits.foldlM apply editor = .ok next) (journal : Array Event) (history : History) :
    Course editor request { next with store := { next.store with journal }, history } := by
  obtain ⟨heffects, hsound, halike⟩ := foldlM_apply_eq_ok h.sound
    (fun edit hedit => (hedits edit hedit).everywhere h.recorded fun _ => h.brings hrequest) hmade
  exact ⟨(hsound.journal journal).history history, halike.grammar, halike.settings, edits, hedits,
    heffects⟩

/-- Recording an edit changes what was announced and what was recorded. -/
theorem recordEdit_eq (edit : Edit) (refresh : Option Path) (editor : Editor) :
    ∃ journal history, editor.recordEdit edit refresh =
      { editor with store := { editor.store with journal }, history } := by
  unfold recordEdit
  split
  · exact ⟨editor.store.journal, _, rfl⟩
  · obtain ⟨journal, heq⟩ := refreshAt_eq refresh editor
    dsimp only
    rw [heq]
    exact ⟨journal, _, rfl⟩

/-- The edits of a request to make a group stem from recorded edits or come with the request. -/
theorem Asks.stems {edits : List Edit} (hasks : Asks editor request edits) :
    ∀ edit ∈ edits, Stems editor request edit := by
  cases hasks with
  | undo hclosed hdone =>
    exact Stems.inverses fun edit hedit node hnode => ⟨edit, .inl (History.mem_edits.mpr
      (.inl ⟨_, hdone ▸ List.mem_cons_self, hedit⟩)), hnode⟩
  | redo hclosed hundone =>
    exact fun edit hedit node hnode => ⟨edit, .inl (History.mem_edits.mpr
      (.inr (.inl ⟨_, hundone ▸ List.mem_cons_self, hedit⟩))), hnode⟩
  | execute hclosed => exact fun edit hedit node hnode => ⟨edit, .inr hedit, hnode⟩

/-- A turn of a request that returns runs its course. -/
theorem Turn.course (turn : Turn editor request result editor') (h : editor.Steady)
    (hrequest : request.WellFormed) (hreturns : ∀ breach, result ≠ .error (.broken breach)) :
    Course editor request editor' := by
  -- Every turn comes to a list of edits that are made, with the record of the editor changed at the
  -- end.
  cases turn with
  | refused | batchOpen | noBatch | noState | idle => exact .rest h.sound editor.history
  | began | dropped | named => exact .rest h.sound _
  | @committed command edit refresh next hplanned hmade =>
    obtain ⟨journal, history, heq⟩ := recordEdit_eq edit refresh next
    rw [heq]
    have hall : [edit].foldlM apply editor = .ok next := by rw [List.foldlM_cons, hmade]; rfl
    refine .made h hrequest (fun e he node hnode => ?_) hall journal history
    rw [List.mem_singleton.mp he] at hnode
    exact ⟨edit, .inr ⟨refresh, hplanned⟩, hnode⟩
  | @undone group rest next hclosed hdone hmade =>
    obtain ⟨journal, heq⟩ := refreshAt_eq group.refresh next
    rw [heq]
    exact .made h hrequest (Asks.undo hclosed hdone).stems hmade journal _
  | @redone group rest next hclosed hundone hmade =>
    obtain ⟨journal, heq⟩ := refreshAt_eq group.refresh next
    rw [heq]
    exact .made h hrequest (Asks.redo hclosed hundone).stems hmade journal _
  | @executed group next hclosed hmade =>
    obtain ⟨journal, heq⟩ := refreshAt_eq group.refresh next
    rw [heq]
    exact .made h hrequest (Asks.execute hclosed).stems hmade journal _
  | @failed request edits failure after hasks hattempt =>
    cases hattempt with
    | broken => exact absurd rfl (hreturns _)
    | @refused made rest edit between back reason hparts hmade hrefused hback =>
      have hstems : ∀ edit ∈ made, Stems editor request edit := fun e he =>
        hasks.stems e (hparts ▸ List.mem_append_left _ he)
      have hall : (made ++ made.reverse.map Edit.invert).foldlM apply editor = .ok back := by
        rw [List.foldlM_append, hmade]
        exact hback
      exact .made h hrequest
        (fun e he => (List.mem_append.mp he).elim (hstems e) (Stems.inverses hstems e)) hall
        editor.store.journal back.history
  | @ended batch group hopened hedits =>
    obtain ⟨journal, heq⟩ := refreshAt_eq group.refresh editor
    rw [heq]
    have hnone : [].foldlM apply editor = .ok editor := rfl
    refine .made h hrequest (fun edit hedit => ?_) hnone journal _
    cases hedit
  | stuck => exact absurd rfl (hreturns _)
  | @aborted batch back hopened hback =>
    -- The batch is off the history when it is taken back; the edits do not look at the history.
    have hframe := foldlM_apply_withRecord editor (fun history => { history with batch := none })
      id (batch.edits.reverse.map Edit.invert)
    rw [show editor.withRecord (fun history => { history with batch := none }) id =
      { editor with history := { editor.history with batch := none } } from rfl, hback] at hframe
    cases hmade : (batch.edits.reverse.map Edit.invert).foldlM apply editor with
    | error failure =>
      rw [hmade] at hframe
      cases hframe
    | ok next =>
      rw [hmade] at hframe
      cases hframe
      refine .made h hrequest (Stems.inverses fun edit hedit node hnode => ?_) hmade
        next.store.journal _
      exact ⟨edit, .inl (History.mem_edits.mpr (.inr (.inr ⟨batch, hopened, hedit⟩))), hnode⟩

/-- The states go on standing for the document. -/
theorem Turn.steady (turn : Turn editor request result editor') (h : editor.Steady)
    (hrequest : request.WellFormed) (hreturns : ∀ breach, result ≠ .error (.broken breach)) :
    editor'.Steady where
  sound := (turn.course h hrequest hreturns).sound
  recorded := fun edit hedit =>
    (turn.recorded hreturns hedit).elim (h.recorded edit) (h.brings hrequest)

/-- An editor breaks down only where an edit cannot be taken back. -/
theorem Turn.breach (turn : Turn editor request result editor') {breach : Breach}
    (hbroken : result = .error (.broken breach)) :
    ∃ name reason, breach = .revertFailed name reason := by
  subst hbroken
  cases turn with
  | failed hasks hattempt => cases hattempt; exact ⟨_, _, rfl⟩
  | stuck => exact ⟨_, _, rfl⟩

/-! ## Runs -/

/-- The answer to a request that returns, with the editor that it leaves. -/
def Outcome.returned {α : Type} (outcome : Outcome α) :
    Except Breach (Except Refusal α × Editor) :=
  match outcome with
  | (.ok answer, editor) => .ok (.ok answer, editor)
  | (.error (.refused reason), editor) => .ok (.error reason, editor)
  | (.error (.broken breach), _) => .error breach

/-- The answers to requests that are carried out one after the other, with the editor that they
leave. A breakdown ends the run. -/
def runAll : List Request → Editor → Except Breach (List (Except Refusal Reply) × Editor)
  | [], editor => .ok ([], editor)
  | request :: rest, editor => do
    let (answer, next) ← Outcome.returned (editor.run request)
    let (answers, last) ← runAll rest next
    return (answer :: answers, last)

/-- A request that returns takes a turn that does. -/
theorem turn_of_returned (h : editor.Steady) (hrequest : request.WellFormed)
    {answer : Except Refusal Reply}
    (hreturned : Outcome.returned (editor.run request) = .ok (answer, editor')) :
    Turn editor request (answer.mapError .refused) editor' := by
  have turn := run_turn h hrequest
  generalize editor.run request = outcome at hreturned turn
  obtain ⟨result, next⟩ := outcome
  cases result with
  | ok reply => cases hreturned; exact turn
  | error failure => cases failure <;> cases hreturned; exact turn

/-- An answer is no breakdown. -/
theorem mapError_ne_broken (answer : Except Refusal Reply) (breach : Breach) :
    answer.mapError Failure.refused ≠ .error (.broken breach) := by
  cases answer <;> simp

/-- What every turn that returns preserves holds at the end of a run. -/
theorem runAll_induct {p : Editor → Prop} {q : Request → Prop}
    (step : ∀ editor request answer editor', editor.Steady → p editor → request.WellFormed →
      q request → Turn editor request (Except.mapError .refused answer) editor' → p editor')
    {requests : List Request} {answers : List (Except Refusal Reply)} (h : editor.Steady)
    (hp : p editor) (hrequests : ∀ request ∈ requests, request.WellFormed ∧ q request)
    (hrun : runAll requests editor = .ok (answers, editor')) : editor'.Steady ∧ p editor' := by
  induction requests generalizing editor answers with
  | nil => cases hrun; exact ⟨h, hp⟩
  | cons request rest ih =>
    obtain ⟨⟨answer, next⟩, hreturned, hrun⟩ := bind_eq_ok.mp hrun
    obtain ⟨⟨others, last⟩, hrest, hlast⟩ := bind_eq_ok.mp hrun
    cases hlast
    obtain ⟨hrequest, hq⟩ := hrequests request List.mem_cons_self
    have turn := turn_of_returned h hrequest hreturned
    exact ih (turn.steady h hrequest (mapError_ne_broken answer))
      (step editor request answer next h hp hrequest hq turn)
      (fun r hr => hrequests r (List.mem_cons_of_mem _ hr)) hrest

/-- The states stand for the document at the end of a run. -/
theorem steady_runAll {requests : List Request} {answers : List (Except Refusal Reply)}
    (h : editor.Steady) (hrequests : ∀ request ∈ requests, request.WellFormed)
    (hrun : runAll requests editor = .ok (answers, editor')) : editor'.Steady :=
  (runAll_induct (p := fun _ => True) (q := fun _ => True) (fun _ _ _ _ _ _ _ _ _ => trivial) h
    trivial (fun request hmem => ⟨hrequests request hmem, trivial⟩) hrun).1

/-- A run that ends early ends with a request on which the editor breaks down. -/
theorem exists_turn_of_breach {requests : List Request} {breach : Breach} (h : editor.Steady)
    (hrequests : ∀ request ∈ requests, request.WellFormed)
    (hrun : runAll requests editor = .error breach) :
    ∃ before request after answers between last, requests = before ++ request :: after ∧
      runAll before editor = .ok (answers, between) ∧
      Turn between request (.error (.broken breach)) last := by
  -- By induction on the requests: the editor is steady up to the one that breaks it down.
  induction requests generalizing editor with
  | nil => cases hrun
  | cons request rest ih =>
    have hrequest := hrequests request List.mem_cons_self
    rw [runAll] at hrun
    cases hreturned : Outcome.returned (editor.run request) with
    | ok returned =>
      obtain ⟨answer, next⟩ := returned
      have hnext := (turn_of_returned h hrequest hreturned).steady h hrequest (mapError_ne_broken _)
      rw [hreturned, ok_bind] at hrun
      dsimp only at hrun
      cases hrest : runAll rest next with
      | ok found =>
        rw [hrest] at hrun
        cases hrun
      | error other =>
        rw [hrest] at hrun
        cases hrun
        obtain ⟨before, last, after, answers, between, end', rfl, hbefore, turn⟩ :=
          ih hnext (fun r hr => hrequests r (List.mem_cons_of_mem _ hr)) hrest
        refine ⟨request :: before, last, after, answer :: answers, between, end', rfl, ?_, turn⟩
        rw [runAll, hreturned, ok_bind]
        dsimp only
        rw [hbefore]
        rfl
    | error other =>
      rw [hreturned] at hrun
      cases hrun
      have turn := run_turn h hrequest
      generalize editor.run request = outcome at hreturned turn
      obtain ⟨result, next⟩ := outcome
      cases result with
      | ok reply => cases hreturned
      | error failure =>
        cases failure <;> cases hreturned
        exact ⟨[], request, rest, [], editor, next, rfl, rfl, turn⟩

/-- An editor that was just made has recorded nothing. -/
theorem steady_ofDocument {document : Node} {grammar : Grammar} {settings : Settings}
    (hdocument : document.WellFormed) (hgrammar : grammar.Distinct)
    (h : ofDocument document grammar settings = .ok editor) : editor.Steady := by
  obtain ⟨hsound, -, -, -, hhistory⟩ := mirrors_ofDocument hdocument hgrammar h
  refine ⟨hsound, fun edit hedit => ?_⟩
  rw [hhistory] at hedit
  cases hedit

/-- An editor is what a run over some document leaves. -/
def Reachable (editor : Editor) : Prop :=
  ∃ document grammar settings start requests answers, document.WellFormed ∧
    Grammar.Distinct grammar ∧ ofDocument document grammar settings = .ok start ∧
      (∀ request ∈ requests, request.WellFormed) ∧ runAll requests start = .ok (answers, editor)

/-- The states of an editor that a run leaves stand for its document. -/
theorem Reachable.steady (h : editor.Reachable) : editor.Steady := by
  obtain ⟨document, grammar, settings, start, requests, answers, hdocument, hgrammar, hstart,
    hrequests, hrun⟩ := h
  exact steady_runAll (steady_ofDocument hdocument hgrammar hstart) hrequests hrun

/-- An editor that was just made is one that a run of no requests leaves. -/
theorem reachable_ofDocument {document : Node} {grammar : Grammar} {settings : Settings}
    (hdocument : document.WellFormed) (hgrammar : grammar.Distinct)
    (h : ofDocument document grammar settings = .ok editor) : editor.Reachable :=
  ⟨document, grammar, settings, editor, [], [], hdocument, hgrammar, h, nofun, rfl⟩

end Editor

/-! ## A document to edit -/

/-- A document with children of every kind. Of its optional children one retains an item and the
other one is assigned. -/
def Node.sample : Node :=
  .mk "Root" [("title", .value (.text "one")), ("body", .child (.bare "Body")),
    ("items", .list [.bare "A", .bare "B"]), ("extra", .optional false (some (.bare "C"))),
    ("more", .optional true (some (.bare "D"))),
    ("groups", .blockList [⟨.blank, [.bare "X", .bare "Y"]⟩, ⟨.blank, [.bare "Z"]⟩])]

/-- The sample document is well-formed. -/
theorem Node.wellFormed_sample : Node.sample.WellFormed := by decide

/-- The group of some edits, the first of them apart. -/
def Group.plain (first : Edit) (rest : List Edit) : Group :=
  ⟨first :: rest, List.cons_ne_nil _ _, none, none⟩

/-- The grammar that takes every node as it is names nothing twice. -/
theorem Grammar.distinct_free : Grammar.free.Distinct := trivial

/-- An editor can be made of a document and passes a test. -/
theorem Editor.exists_start {d : Node} {g : Grammar} {s : Settings} {p : Editor → Bool}
    (h : (ofDocument d g s).toOption.any p) :
    ∃ start, ofDocument d g s = .ok start ∧ p start = true := by
  cases hstart : ofDocument d g s with
  | error failure =>
    rw [hstart] at h
    cases h
  | ok start =>
    rw [hstart] at h
    exact ⟨start, rfl, h⟩

end TreeEditor
