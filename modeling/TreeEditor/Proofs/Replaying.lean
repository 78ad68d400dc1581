import TreeEditor.Proofs.Decoding
import TreeEditor.Proofs.Timeline

/-!
# Undoing a script

Every instruction makes a plain request, so an editor that carries out a script walks along a
timeline. Without a limit on the groups no snapshot is forgotten, and the earliest one stays the
document that the script was begun on (`Timeline.Step.origin_eq`). A replay that undoes everything
at the end therefore comes back to the document of the file, provided that no batch is left open;
otherwise the first undoing is refused, as always while a batch is open (`replay_undoAll`).
-/

namespace TreeEditor

/-! ## Instructions -/

namespace Instruction

variable {editor : Editor} {instruction : Instruction}

/-- An insertion that an instruction asks for brings along the node of the instruction. -/
theorem node_of_insertionOf {path : String} {node : Node} {insertion : Insertion}
    (h : insertionOf editor path node = .ok insertion) :
    (Command.insert insertion).nodes = [node] := by
  obtain ⟨path, -, h⟩ := bind_eq_ok.mp h
  split at h
  · cases h
  · obtain ⟨parent, -, h⟩ := bind_eq_ok.mp h
    split at h <;> cases h <;> rfl

/-- The request of an instruction is plain and brings along nothing else than the instruction. -/
theorem plain_of_request {request : Request} (h : instruction.request editor = .ok request) :
    request.Plain ∧ ∀ node ∈ request.nodes, node ∈ instruction.nodes := by
  cases instruction with
  | insert path node =>
    obtain ⟨insertion, hinsertion, ⟨⟩⟩ := bind_eq_ok.mp h
    refine ⟨trivial, fun found hfound => ?_⟩
    rwa [Request.nodes, node_of_insertionOf hinsertion] at hfound
  | replace path node | assign path node | insertBlock branch block content =>
    obtain ⟨place, -, ⟨⟩⟩ := bind_eq_ok.mp h
    exact ⟨trivial, fun _ => id⟩
  | setValue path property value =>
    obtain ⟨path, -, h⟩ := bind_eq_ok.mp h
    obtain ⟨state, -, ⟨⟩⟩ := bind_eq_ok.mp h
    exact ⟨trivial, fun _ => id⟩
  | undo | redo | beginBatch description | endBatch | abortBatch =>
    cases h
    exact ⟨trivial, nofun⟩
  | _ =>
    obtain ⟨place, -, ⟨⟩⟩ := bind_eq_ok.mp h
    exact ⟨trivial, fun _ => id⟩

/-- An instruction that succeeds makes a request that is answered. -/
theorem run_of_follow {next : Editor} (h : instruction.follow editor = (.ok (), next)) :
    ∃ request reply, instruction.request editor = .ok request ∧
      editor.run request = (.ok reply, next) := by
  unfold follow at h
  split at h
  · cases h
  · rename_i request hrequest
    refine ⟨request, ?_⟩
    cases hrun : editor.run request with
    | mk result after =>
      rw [hrun] at h
      cases result with
      | error failure => cases h
      | ok reply =>
        obtain ⟨-, rfl⟩ := Prod.mk.inj h
        exact ⟨reply, hrequest, rfl⟩

/-- Instructions that succeed one after the other lead from one editor to another. -/
inductive Leads : Editor → List Instruction → Editor → Prop where
  | nil (editor : Editor) : Leads editor [] editor
  | cons {editor next last : Editor} {instruction : Instruction} {rest : List Instruction}
    (hfollow : instruction.follow editor = (.ok (), next)) (hrest : Leads next rest last) :
    Leads editor (instruction :: rest) last

end Instruction

/-! ## The earliest snapshot -/

namespace Timeline

variable {timeline next : Timeline} {request : Request} {answer : Except Refusal Reply}

/-- The earliest snapshot that is kept. -/
def origin (timeline : Timeline) : Node := timeline.past.getLastD timeline.present

/-- Where no snapshot is forgotten a new one leaves the earliest one in its place. -/
theorem origin_advance (hlimit : timeline.limit = 0) (document : Node) :
    (timeline.advance document).origin = timeline.origin := by
  rw [advance, origin, hlimit, if_pos rfl, List.getLastD_cons]
  rfl

/-- Where no snapshot is forgotten no request changes the earliest one. -/
theorem Step.origin_eq (hstep : timeline.Step request answer next) (hlimit : timeline.limit = 0) :
    next.limit = 0 ∧ next.origin = timeline.origin := by
  cases hstep with
  | changed command document =>
    unfold record
    split
    · exact ⟨hlimit, rfl⟩
    · exact ⟨hlimit, origin_advance hlimit document⟩
  | undone hclosed hpast =>
    refine ⟨hlimit, ?_⟩
    rw [origin, origin, hpast, List.getLastD_cons]
  | redone => exact ⟨hlimit, List.getLastD_cons ..⟩
  | ended => exact ⟨hlimit, origin_advance hlimit _⟩
  | refused | nothingDone | nothingUndone | began | dropped | aborted | batchOpen | noBatch =>
    exact ⟨hlimit, rfl⟩

end Timeline

namespace CommandLine

open Timeline Instruction Editor

variable {editor next last : Editor} {timeline : Timeline}

/-- A request that is answered is answered as by the timeline that the editor shows. -/
theorem exists_step (h : editor.Steady) (hshows : timeline.Shows editor)
    (hlimit : timeline.limit = 0) {request : Request} (hrequest : request.WellFormed)
    (hplain : request.Plain) {reply : Reply} (hrun : editor.run request = (.ok reply, next)) :
    ∃ later, timeline.Step request (.ok reply) later ∧ next.Steady ∧ later.Shows next ∧
      later.limit = 0 ∧ later.origin = timeline.origin := by
  have turn := run_turn h hrequest
  rw [hrun] at turn
  obtain ⟨answer, later, hanswer, hstep, hlater⟩ := turn.follows h hrequest hplain hshows
  obtain rfl : answer = .ok reply := by
    cases answer <;> cases hanswer
    rfl
  exact ⟨later, hstep, turn.steady h hrequest nofun, hlater, hstep.origin_eq hlimit⟩

/-- A script that succeeds leads along a timeline whose earliest snapshot stays as it is. -/
theorem shows_of_leads {instructions : List Instruction} (hleads : Leads editor instructions last)
    (hwell : ∀ instruction ∈ instructions, instruction.WellFormed) (h : editor.Steady)
    (hshows : timeline.Shows editor) (hlimit : timeline.limit = 0) :
    ∃ later : Timeline, last.Steady ∧ later.Shows last ∧ later.limit = 0 ∧
      later.origin = timeline.origin := by
  induction hleads generalizing timeline with
  | nil => exact ⟨timeline, h, hshows, hlimit, rfl⟩
  | cons hfollow _ ih =>
    obtain ⟨hinstruction, hrest⟩ := List.forall_mem_cons.mp hwell
    obtain ⟨request, reply, hrequest, hrun⟩ := run_of_follow hfollow
    obtain ⟨hplain, hnodes⟩ := plain_of_request hrequest
    obtain ⟨between, -, hsteady, hbetween, hzero, horigin⟩ := exists_step h hshows hlimit
      (fun node hnode => hinstruction node (hnodes node hnode)) hplain hrun
    obtain ⟨later, hlast, hlater, hnone, heq⟩ := ih hrest hsteady hbetween hzero
    exact ⟨later, hlast, hlater, hnone, heq.trans horigin⟩

/-! ## Undoing -/

/-- An editor after undoing some times. -/
def afterUndoing (times : Nat) (editor : Editor) : Editor :=
  (fun editor => editor.undo.2)^[times] editor

/-- Where no batch is open and nothing can be undone, nothing is undone. -/
theorem undo_of_empty (hclosed : editor.history.batch = none) (hdone : editor.history.done = []) :
    editor.undo = (.ok false, editor) := by
  rw [Editor.undo, History.inBatch, hclosed, History.popDone, hdone]
  rfl

/-- Where no batch is open and there is an earlier snapshot, undoing goes back to it. -/
theorem exists_undo (h : editor.Steady) (hshows : timeline.Shows editor)
    (hclosed : timeline.draft = none) {snapshot : Node} {rest : List Node}
    (hpast : timeline.past = snapshot :: rest) :
    ∃ after, editor.undo = (.ok true, after) ∧ after.Steady ∧ Shows { timeline with
      past := rest, present := snapshot, future := timeline.present :: timeline.future } after := by
  have turn := run_turn h (show Request.WellFormed .undo from nofun)
  obtain ⟨answer, next, hanswer, hstep, hnext⟩ := turn.follows h nofun trivial hshows
  cases hstep with
  | undone _ hfound =>
    rw [hpast] at hfound
    cases hfound
    rw [hanswer] at turn
    refine ⟨editor.undo.2, Prod.ext ?_ rfl, turn.steady h nofun nofun, hnext⟩
    change Except.map Reply.whether editor.undo.1 = .ok (.whether true) at hanswer
    cases hresult : editor.undo.1 with
    | error failure => rw [hresult] at hanswer; cases hanswer
    | ok acted => rw [hresult] at hanswer; cases hanswer; rfl
  | nothingDone _ hempty =>
    rw [hpast] at hempty
    cases hempty
  | batchOpen hopened =>
    rw [hclosed] at hopened
    cases hopened
  | noBatch _ hasked => rcases hasked with hasked | hasked <;> cases hasked

/-- A report ends like another one, with lines of its own in front. -/
def Report.EndsWith (report rest : Report) : Prop := ∃ lines, report = .after lines rest

/-- A report ends like itself. -/
theorem Report.EndsWith.refl (report : Report) : report.EndsWith report := ⟨[], rfl⟩

/-- A report with further lines in front ends as before. -/
theorem Report.EndsWith.after {report rest : Report} (h : report.EndsWith rest)
    (lines : List String) : (Report.after lines report).EndsWith rest := by
  obtain ⟨more, rfl⟩ := h
  exact ⟨lines ++ more, by simp only [Report.after, List.append_assoc]⟩

/-- A report ends like what its end ends like. -/
theorem Report.EndsWith.trans {report rest tail : Report} (h : report.EndsWith rest)
    (hrest : rest.EndsWith tail) : report.EndsWith tail := by
  obtain ⟨lines, rfl⟩ := h
  exact hrest.after lines

/-- Reports that end alike have one result. -/
theorem Report.EndsWith.result_eq {report rest : Report} (h : report.EndsWith rest) :
    report.result = rest.result := by
  obtain ⟨lines, rfl⟩ := h
  rfl

/-- Undoing until there is nothing left leads back to the earliest snapshot. -/
theorem undoAll_endsWith (next : Nat → Editor → Report) {past : List Node}
    (hpast : timeline.past = past) (h : editor.Steady) (hshows : timeline.Shows editor)
    (hclosed : timeline.draft = none) (undone : Nat) :
    ∃ final, final = afterUndoing past.length editor ∧
      (undoAll next (past.length + 1) undone editor).EndsWith
        (next (undone + past.length) final) ∧
      final.Steady ∧ final.history.done = [] ∧ final.document = timeline.origin := by
  induction past generalizing editor timeline undone with
  | nil =>
    have hbatch : editor.history.batch = none := by
      have hdrafts := hshows.drafts
      rw [hclosed] at hdrafts
      generalize editor.history.batch = batch at hdrafts
      cases hdrafts
      rfl
    have hdone : editor.history.done = [] := by
      have hlength := hshows.behind.length_eq
      rw [hpast] at hlength
      exact List.length_eq_zero_iff.mp hlength
    refine ⟨editor, rfl, ?_, h, hdone, ?_⟩
    · rw [List.length_nil, undoAll, undo_of_empty hbatch hdone]
      exact (Report.EndsWith.refl _).after _
    · rw [hshows.document, Timeline.document, hclosed, origin, hpast]
      rfl
  | cons snapshot rest ih =>
    obtain ⟨after, hundo, hsteady, hafter⟩ := exists_undo h hshows hclosed hpast
    obtain ⟨final, hfinal, hends, hsteady, hdone, horigin⟩ :=
      ih (by rfl) hsteady hafter hclosed (undone + 1)
    refine ⟨final, ?_, ?_, hsteady, hdone, ?_⟩
    · rw [hfinal, afterUndoing, afterUndoing, List.length_cons, Function.iterate_succ_apply, hundo]
    · rw [List.length_cons, undoAll, hundo]
      rw [Nat.add_right_comm, Nat.add_assoc undone] at hends
      exact hends.after _
    · rw [horigin, origin, origin, hpast, List.getLastD_cons]

/-! ## Replaying -/

/-- A script that succeeds is carried out to its end. -/
theorem followAll_endsWith (next : Editor → Report) {instructions : List Instruction}
    (hleads : Leads editor instructions last) (number : Nat) :
    (followAll next number instructions editor).EndsWith (next last) := by
  induction hleads generalizing number with
  | nil editor => exact .refl _
  | cons hfollow _ ih =>
    rw [followAll, hfollow]
    exact (ih (number + 1)).after _

/-- An editor that was just made of a well-formed document shows the timeline of the document. -/
theorem shows_ofDocument {document : Node} {settings : Settings} (hdocument : document.WellFormed)
    (hstart : ofDocument document .free settings = .ok editor) :
    editor.Steady ∧ Shows (.start settings.maxUndoLevels document) editor := by
  obtain ⟨-, -, heq, -, hhistory⟩ := mirrors_ofDocument hdocument Grammar.distinct_free hstart
  refine ⟨steady_ofDocument hdocument Grammar.distinct_free hstart, heq, ?_, ?_, ?_, ?_,
    fun _ => Nat.zero_le _⟩
  · rw [hhistory]; exact .nil document
  · rw [hhistory]; exact .nil document
  · rw [hhistory]; exact .closed
  · rw [hhistory]; rfl

/-- The editor of a document without a schema is made of the document of the file. -/
theorem of_loadEditor {files : Files} {tree : String} {settings : Settings}
    (h : loadEditor files tree none settings = .ok editor) :
    ∃ document, loadDocument files tree = .ok document ∧ document.WellFormed ∧
      ofDocument document .free settings = .ok editor := by
  obtain ⟨document, hdocument, h⟩ := bind_eq_ok.mp h
  refine ⟨document, hdocument, of_load (Node.yields_wellFormed false) hdocument, ?_⟩
  change (ofDocument document .free settings).mapError _ = _ at h
  cases hmade : ofDocument document .free settings with
  | error failure => rw [hmade] at h; cases h
  | ok made => rw [hmade] at h; cases h; rfl

/-- The end of a replay goes well when the states stand for the document. -/
theorem result_finish (h : editor.Sound) (options : ReplayOptions) (instructions events : Nat) :
    (finish options instructions events editor).result = .ok () := by
  rw [finish, verified, h.verify]
  rfl

/-- A replay of a script that succeeds and is undone ends like the undoing of it. -/
theorem replay_endsWith {files : Files} {tree script : String} {settings : Settings}
    {instructions : List Instruction} {start : Editor} (printTree : Bool)
    (hscript : loadScript files script = .ok instructions)
    (hstart : loadEditor files tree none settings = .ok start)
    (hleads : Leads start instructions last) :
    ∃ events : Editor → Nat, (replay files tree script none ⟨true, printTree⟩ settings).EndsWith
      (undoAll (fun undone editor => .after [s!"   ↩ undid {undone} levels"]
        (finish ⟨true, printTree⟩ instructions.length (events editor) editor))
        (last.history.done.length + 1) 0 last) := by
  refine ⟨fun editor => editor.store.journal.size - start.store.journal.size, ?_⟩
  rw [replay, hscript, hstart]
  exact (followAll_endsWith _ hleads 0).after _

/-- Without a limit on the groups, a replay that undoes everything ends well, with nothing left to
be undone and with the document of the file, if every instruction of the script succeeds and no
batch is left open. If one is left open, the undoing is refused. -/
theorem replay_undoAll {files : Files} {tree script : String} {settings : Settings}
    {instructions : List Instruction} {start last : Editor} (printTree : Bool)
    (hlimit : settings.maxUndoLevels = 0) (hscript : loadScript files script = .ok instructions)
    (hstart : loadEditor files tree none settings = .ok start)
    (hleads : Leads start instructions last) :
    (last.history.inBatch = false → ∃ events final,
      final = afterUndoing last.history.done.length last ∧
      (replay files tree script none ⟨true, printTree⟩ settings).EndsWith
        (finish ⟨true, printTree⟩ instructions.length events final) ∧
      (replay files tree script none ⟨true, printTree⟩ settings).result = .ok () ∧
      final.history.done.length = 0 ∧ loadDocument files tree = .ok final.document) ∧
    (last.history.inBatch = true →
      (replay files tree script none ⟨true, printTree⟩ settings).result =
        .error ⟨none, .faulty (.failed (.refused .batchOpen))⟩) := by
  obtain ⟨document, hload, hdocument, hmade⟩ := of_loadEditor hstart
  have hwell : ∀ instruction ∈ instructions, instruction.WellFormed :=
    of_load (Json.Decoder.yields_list Instruction.yields_wellFormed) hscript
  obtain ⟨hsteady, hshows⟩ := shows_ofDocument hdocument hmade
  obtain ⟨timeline, hlast, hshown, -, horigin⟩ := shows_of_leads hleads hwell hsteady hshows hlimit
  obtain ⟨events, hreplay⟩ := replay_endsWith printTree hscript hstart hleads
  constructor
  · intro hclosed
    -- Without a batch there is no draft, so undoing steps through the snapshots of the past.
    have hdraft : timeline.draft = none := by
      have hagrees := hshown.agrees.inBatch
      rw [hclosed] at hagrees
      exact Option.isNone_iff_eq_none.mp (by simpa using hagrees.symm)
    obtain ⟨final, hfinal, hends, hfound, hdone, heq⟩ := undoAll_endsWith
      (fun undone editor => .after [s!"   ↩ undid {undone} levels"]
        (finish ⟨true, printTree⟩ instructions.length (events editor) editor)) rfl hlast hshown
      hdraft 0
    rw [← hshown.behind.length_eq] at hfinal hends
    have hreport := (hreplay.trans hends).trans ((Report.EndsWith.refl _).after _)
    refine ⟨events final, final, hfinal, hreport, ?_, by rw [hdone]; rfl, ?_⟩
    · rw [hreport.result_eq, result_finish hfound.sound]
    · rw [hload, heq, horigin]
      rfl
  · intro hopen
    rw [hreplay.result_eq, undoAll, Editor.undo, if_pos hopen]
    rfl

/-! ## Scripts to replay -/

/-- Instructions succeed one after the other, and the editor that they lead to passes a test. -/
def leadsTo (p : Editor → Bool) : List Instruction → Editor → Bool
  | [], editor => p editor
  | instruction :: rest, editor =>
    match instruction.follow editor with
    | (.ok (), next) => leadsTo p rest next
    | (.error _, _) => false

/-- Instructions that succeed lead to an editor that passes the test. -/
theorem exists_leads {p : Editor → Bool} {instructions : List Instruction}
    (h : leadsTo p instructions editor = true) :
    ∃ last, Leads editor instructions last ∧ p last = true := by
  induction instructions generalizing editor with
  | nil => exact ⟨editor, .nil editor, h⟩
  | cons instruction rest ih =>
    rw [leadsTo] at h
    split at h
    · rename_i next hfollow
      obtain ⟨last, hleads, hlast⟩ := ih h
      exact ⟨last, .cons hfollow hleads, hlast⟩
    · cases h

/-- The editor of a document file without a schema is the editor of the document. -/
theorem loadEditor_eq_ok {files : Files} {tree : String} {settings : Settings} {document : Node}
    (hload : loadDocument files tree = .ok document)
    (hmade : ofDocument document .free settings = .ok editor) :
    loadEditor files tree none settings = .ok editor := by
  rw [loadEditor, hload, ok_bind, loadGrammar, ok_bind, hmade]
  rfl

/-- A document with a title. -/
def titled : Node := .mk "Root" [("title", .value (.text "one"))]

/-- The title is changed twice, the second time in a batch that is undone. -/
def retitling : List Instruction :=
  [.setValue "/" "title" (.text "two"), .beginBatch none, .setValue "/" "title" (.text "three"),
    .endBatch, .undo]

/-- The files of the document and of the script. -/
def titledFiles : Files :=
  [("tree.json", titled.toJson.compact),
    ("script.json", (Json.arr (retitling.map Instruction.toJson)).compact)]

/-- The replay that undoes them ends with the title that the document had. -/
theorem replay_undoAll_titled :
    ∃ events final,
      (replay titledFiles "tree.json" "script.json" none ⟨true, true⟩ ⟨0, true⟩).EndsWith
        (finish ⟨true, true⟩ retitling.length events final) ∧
        final.history.done.length = 0 ∧ final.document = titled := by
  have hscript : loadScript titledFiles "script.json" = .ok retitling := by
    have hread : Json.decodeText Script.decoder
        (Json.arr (retitling.map Instruction.toJson)).compact = some retitling := by
      have hall : ∀ instruction ∈ retitling, instruction.WellFormed ∧ instruction.Fits := by decide
      exact decodeText_of_restores
        (Json.Decoder.restores_list fun instruction hmem =>
          Instruction.restores (hall instruction hmem).1 (hall instruction hmem).2)
        (kept_list fun instruction hmem => Instruction.kept_toJson (hall instruction hmem).2)
        (by decide)
    simp [loadScript, load, titledFiles, Table.get?, hread]
  have hload : loadDocument titledFiles "tree.json" = .ok titled := by
    have hread : Json.decodeText (Node.decoder false) titled.toJson.compact = some titled :=
      decodeText_of_restores (Node.restores false (by decide)) titled.kept_toJson (by decide)
    simp [loadDocument, load, titledFiles, Table.get?, hread]
  obtain ⟨start, hmade, hfollows⟩ := exists_start (d := titled) (g := .free) (s := ⟨0, true⟩)
    (p := leadsTo (!·.history.inBatch) retitling) (by cbv)
  obtain ⟨last, hleads, hlast⟩ := exists_leads hfollows
  obtain ⟨events, final, -, hends, -, hdone, hfinal⟩ := (replay_undoAll true rfl hscript
    (loadEditor_eq_ok hload hmade) hleads).1 (by simpa using hlast)
  rw [hload] at hfinal
  exact ⟨events, final, hends, hdone, (Except.ok.inj hfinal).symm⟩

/-- A document, and a script that begins a batch and does not end it. -/
def openFiles : Files :=
  [("tree.json", "\x7b\"kind\":\"Root\"\x7d"), ("script.json", "[\x7b\"op\":\"beginBatch\"\x7d]")]

/-- Every instruction of the script succeeds, yet the replay that is to undo them fails. -/
theorem result_of_openBatch :
    ∃ start last, loadScript openFiles "script.json" = .ok [.beginBatch none] ∧
      loadEditor openFiles "tree.json" none ⟨0, true⟩ = .ok start ∧
      Leads start [.beginBatch none] last ∧
      (replay openFiles "tree.json" "script.json" none ⟨true, false⟩ ⟨0, true⟩).result ≠
        .ok () := by
  have hscript : loadScript openFiles "script.json" = .ok [.beginBatch none] := by cbv
  obtain ⟨start, hmade, hfollows⟩ := exists_start (d := .bare "Root") (g := .free) (s := ⟨0, true⟩)
    (p := leadsTo (·.history.inBatch) [.beginBatch none]) (by cbv)
  obtain ⟨last, hleads, hopen⟩ := exists_leads hfollows
  have hload : loadDocument openFiles "tree.json" = .ok (.bare "Root") := by cbv
  have hstart := loadEditor_eq_ok hload hmade
  refine ⟨start, last, hscript, hstart, hleads, ?_⟩
  obtain ⟨events, hreplay⟩ := replay_endsWith false hscript hstart hleads
  rw [hreplay.result_eq, undoAll, Editor.undo, if_pos hopen]
  intro hok
  cases hok

end CommandLine

end TreeEditor
