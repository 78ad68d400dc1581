import TreeEditor.Editor.Observation
import TreeEditor.Proofs.Addresses
import TreeEditor.Proofs.AnnouncedGrowth
import TreeEditor.Proofs.Handles
import TreeEditor.Proofs.ReplayedRemovals

/-!
# Observers that join and leave

An observer that joins an editor is told what it would have been told, had the editor just been made
of its present document, whatever became of the editor since: both sequences of events bear out the
tale of the document, so they are the same but for the names of the states, and the states of the
two editors correspond by their paths (`Editor.counterpart`). An observer that leaves is told just
what removing all states would announce.
-/

namespace TreeEditor

/-! ## Renaming states -/

/-- A place with its parent renamed. -/
def Place.rename (f : Handle → Handle) : Place → Place
  | root => root
  | within parent property slot => within (f parent) property slot

/-- A property with its owner renamed. -/
def BranchRef.rename (f : Handle → Handle) (branch : BranchRef) : BranchRef :=
  ⟨f branch.owner, branch.property⟩

/-- An event with all states renamed. -/
def Event.rename (f : Handle → Handle) : Event → Event
  | stateCreated place state => stateCreated (place.rename f) (f state)
  | stateSettled place state => stateSettled (place.rename f) (f state)
  | stateDestroyed place state => stateDestroyed (place.rename f) (f state)
  | blockListCreated branch => blockListCreated (branch.rename f)
  | blockCreated branch block => blockCreated (branch.rename f) block
  | blockDestroyed branch block => blockDestroyed (branch.rename f) block
  | inserted place state => inserted (place.rename f) (f state)
  | removed place state => removed (place.rename f) (f state)
  | replaced place old new => replaced (place.rename f) (f old) (f new)
  | assigned place state => assigned (place.rename f) (f state)
  | unassigned place state => unassigned (place.rename f) (f state)
  | moved before after state => moved (before.rename f) (after.rename f) (f state)
  | blockInserted branch block => blockInserted (branch.rename f) block
  | blockMoved branch before after => blockMoved (branch.rename f) before after
  | blockSplit branch block position => blockSplit (branch.rename f) block position
  | blocksMerged branch block position => blocksMerged (branch.rename f) block position
  | replicationChanged branch block replication =>
    replicationChanged (branch.rename f) block replication
  | valueChanged state property => valueChanged (f state) property
  | refreshed state => refreshed (f state)

namespace Store

variable {σ τ : Store} {f : Handle → Handle}

/-- States of two stores with the same path have the same place, their parents renamed by path. -/
theorem rename_place {g g' : Handle} {path : Path} {place place' : Place}
    (hf : ∀ g g' path, σ.Climbs g path → τ.Climbs g' path → f g = g')
    (hplace : σ.place? g = some place) (hclimbs : σ.Climbs g path)
    (hplace' : τ.place? g' = some place') (hclimbs' : τ.Climbs g' path) :
    place.rename f = place' := by
  cases hclimbs with
  | root hat =>
    rw [hplace] at hat
    cases hat
    rw [climbs_nil, hplace'] at hclimbs'
    cases hclimbs'
    rfl
  | within hat hup =>
    rw [hplace] at hat
    cases hat
    obtain ⟨parent', hat', hup'⟩ := climbs_append_singleton.mp hclimbs'
    rw [hplace'] at hat'
    cases hat'
    rw [Place.rename, hf _ _ _ hup hup']

/-- Events of two stores that bear the same notice out are the same, the states renamed by path. -/
theorem Attests.rename_eq {notice : Notice} {event event' : Event}
    (hf : ∀ g g' path, σ.Climbs g path → τ.Climbs g' path → f g = g')
    (h : σ.Attests notice event) (h' : τ.Attests notice event') : event.rename f = event' := by
  cases h with
  | created stands climbs =>
    cases h' with
    | created stands' climbs' =>
      rw [Event.rename, rename_place hf stands climbs stands' climbs', hf _ _ _ climbs climbs']
  | settled stands climbs =>
    cases h' with
    | settled stands' climbs' =>
      rw [Event.rename, rename_place hf stands climbs stands' climbs', hf _ _ _ climbs climbs']
  | blockListCreated name climbs =>
    cases h' with
    | blockListCreated _ climbs' =>
      rw [Event.rename, BranchRef.rename, hf _ _ _ climbs climbs']
  | blockCreated name block climbs =>
    cases h' with
    | blockCreated _ _ climbs' =>
      rw [Event.rename, BranchRef.rename, hf _ _ _ climbs climbs']

/-- Sequences of events of two stores that bear the same notices out are the same, the states
renamed by path. -/
theorem map_rename_eq {notices : List Notice} {events events' : List Event}
    (hf : ∀ g g' path, σ.Climbs g path → τ.Climbs g' path → f g = g')
    (h : List.Forall₂ σ.Attests notices events) (h' : List.Forall₂ τ.Attests notices events') :
    events.map (Event.rename f) = events' := by
  induction h generalizing events' with
  | nil =>
    cases h'
    rfl
  | cons hattests _ ih =>
    cases h' with
    | cons hattests' hrest' => rw [List.map_cons, hattests.rename_eq hf hattests', ih hrest']

end Store

namespace Editor

variable {editor other : Editor} {ν ν' : Handle → Option Node} {g g' : Handle} {path : Path}

/-- The state that another editor has at the path of a state. -/
def counterpart (editor other : Editor) (h : Handle) : Handle :=
  ((editor.pathOf h).toOption.bind fun path => (other.resolve path).toOption).getD h

/-- States of two editors with the same path are counterparts. -/
theorem counterpart_eq (hother : other.Mirrors ν') (hclimbs : editor.store.Climbs g path)
    (hclimbs' : other.store.Climbs g' path) : editor.counterpart other g = g' := by
  rw [counterpart, pathOf_eq_ok.mpr hclimbs, toOption_ok, Option.bind_some,
    (resolve_eq_ok hother).mpr hclimbs', toOption_ok, Option.getD_some]

/-- The editors of a document have states at the same paths. -/
theorem climbs_of_document_eq (hmirrors : editor.Mirrors ν) (hother : other.Mirrors ν')
    (hgrammar : other.grammar = editor.grammar) (hdocument : other.document = editor.document)
    (hclimbs : editor.store.Climbs g path) : ∃ g', other.store.Climbs g' path := by
  rw [hother.climbs_iff, hgrammar, hdocument, ← hmirrors.climbs_iff]
  exact ⟨g, hclimbs⟩

/-- The counterpart of a state in an editor of the same document has the path of the state. -/
theorem climbs_counterpart (hmirrors : editor.Mirrors ν) (hother : other.Mirrors ν')
    (hgrammar : other.grammar = editor.grammar) (hdocument : other.document = editor.document)
    (hclimbs : editor.store.Climbs g path) :
    other.store.Climbs (editor.counterpart other g) path := by
  obtain ⟨g', hclimbs'⟩ := climbs_of_document_eq hmirrors hother hgrammar hdocument hclimbs
  rwa [counterpart_eq hother hclimbs hclimbs']

/-- The states of two editors of a document correspond one to one by their paths. -/
theorem bijOn_counterpart (hmirrors : editor.Mirrors ν) (hother : other.Mirrors ν')
    (hgrammar : other.grammar = editor.grammar) (hdocument : other.document = editor.document) :
    Set.BijOn (editor.counterpart other) {h | editor.store.Live h} {h | other.store.Live h} := by
  have hσ := hmirrors.standing
  refine ⟨fun g hg => ?_, fun g hg g' hg' heq => ?_, fun g' hg' => ?_⟩
  · obtain ⟨path, hclimbs⟩ := hσ.rooted g hg
    exact (climbs_counterpart hmirrors hother hgrammar hdocument hclimbs).live
  · obtain ⟨path, hclimbs⟩ := hσ.rooted g hg
    obtain ⟨path', hclimbs'⟩ := hσ.rooted g' hg'
    have hthere := climbs_counterpart hmirrors hother hgrammar hdocument hclimbs
    rw [heq] at hthere
    obtain rfl :=
      hthere.unique (climbs_counterpart hmirrors hother hgrammar hdocument hclimbs')
    exact hσ.climbs_inj hclimbs hclimbs'
  · obtain ⟨path, hclimbs'⟩ := hother.standing.rooted g' hg'
    obtain ⟨g, hclimbs⟩ :=
      climbs_of_document_eq hother hmirrors hgrammar.symm hdocument.symm hclimbs'
    exact ⟨g, hclimbs.live, counterpart_eq hother hclimbs hclimbs'⟩

/-- Joining tells what making an editor of the present document announces, the states renamed one to
one by their paths, and leaving tells what removing all states announces. Either is read off the
editor, which stays as it is. -/
theorem observed_of_reachable (h : editor.Reachable) (settings : Settings) :
    (∃ fresh events, ofDocument editor.document editor.grammar settings = .ok fresh ∧
      editor.attachEvents = .ok events ∧
      fresh.store.journal.toList = events.map (Event.rename (editor.counterpart fresh)) ∧
      Set.BijOn (editor.counterpart fresh) {h | editor.store.Live h} {h | fresh.store.Live h} ∧
      ∀ h path, editor.pathOf h = .ok path →
        fresh.pathOf (editor.counterpart fresh h) = .ok path) ∧
    ∃ store events, editor.store.destroy editor.root = .ok store ∧
      editor.detachEvents = .ok events ∧
      store.journal.toList = editor.store.journal.toList ++ events := by
  obtain ⟨ν, hmirrors⟩ := h.steady.sound
  refine ⟨?_, hmirrors.standing.destroy_root⟩
  obtain ⟨fresh, ν', hmade, hfresh, hgrammar, hdocument, -⟩ :=
    exists_ofDocument hmirrors.wellFormed hmirrors.valid hmirrors.distinct settings
  obtain ⟨events, hevents, hattests⟩ :=
    hmirrors.standing.attests_creationEvents hmirrors.document
  obtain ⟨announced, hannounced, hattests'⟩ :=
    (announced_ofDocument hmirrors.wellFormed hmade).journal
  refine ⟨fresh, events, hmade, hevents, ?_, bijOn_counterpart hmirrors hfresh hgrammar hdocument,
    fun g path hpath => pathOf_eq_ok.mpr
      (climbs_counterpart hmirrors hfresh hgrammar hdocument (pathOf_eq_ok.mp hpath))⟩
  rw [Store.map_rename_eq (fun g g' path => counterpart_eq hfresh) hattests hattests']
  simpa [Store.empty] using hannounced

/-- The run in which siblings change places leaves an editor that an observer can join and leave; by
then the state of the second item is the third one that was made. -/
theorem observed_shifted : ∃ editor : Editor, editor.Reachable ∧
    (editor.pathOf ⟨2, 0⟩).toOption = some [⟨"items", .list 1⟩] ∧
    (∃ fresh events, ofDocument editor.document editor.grammar .standard = .ok fresh ∧
      editor.attachEvents = .ok events ∧
      fresh.store.journal.toList = events.map (Event.rename (editor.counterpart fresh)) ∧
      Set.BijOn (editor.counterpart fresh) {h | editor.store.Live h} {h | fresh.store.Live h} ∧
      ∀ h path, editor.pathOf h = .ok path →
        fresh.pathOf (editor.counterpart fresh h) = .ok path) ∧
    ∃ store events, editor.store.destroy editor.root = .ok store ∧
      editor.detachEvents = .ok events ∧
      store.journal.toList = editor.store.journal.toList ++ events := by
  obtain ⟨start, hstart, hrun⟩ := exists_start (d := .sample) (g := .free) (s := .standard)
    (p := fun start => match runAll shiftingRun start with
      | .ok (_, last) => (last.pathOf ⟨2, 0⟩).toOption = some [⟨"items", .list 1⟩]
      | .error _ => false) (by cbv)
  cases hlast : runAll shiftingRun start with
  | error breach => rw [hlast] at hrun; cases hrun
  | ok found =>
    obtain ⟨answers, last⟩ := found
    rw [hlast] at hrun
    have hreachable : last.Reachable := ⟨.sample, .free, .standard, start, shiftingRun, answers,
      Node.wellFormed_sample, Grammar.distinct_free, hstart, by decide, hlast⟩
    exact ⟨last, hreachable, of_decide_eq_true hrun, observed_of_reachable hreachable .standard⟩

end Editor

end TreeEditor
