import TreeEditor.Proofs.Growth
import TreeEditor.Proofs.StatePaths

/-!
# Making an editor

The first state of an editor stands for the whole document. It is made in an empty store, registered
at the root and settled; all other states come to be below it while its branches grow. So an editor
can be made of every valid document, and then its states stand for it (`Editor.exists_ofDocument`,
`Editor.mirrors_ofDocument`).
-/

namespace TreeEditor

/-- In a store with one state nothing else has a place. -/
theorem Store.place?_of_empty {root : Handle} {σ : Store}
    (hallocate : Store.empty.allocate .root = (root, σ)) (g : Handle) (place : Place)
    (hplace : σ.place? g = some place) : g = root ∧ place = .root := by
  rw [place?_of_allocate (σ := .empty) Arena.sound_empty hallocate] at hplace
  split at hplace
  · exact ⟨‹_›, (Option.some.inj hplace).symm⟩
  · exact absurd (live_of_place? hplace) (not_live.mpr (Arena.get?_empty g))

namespace Standing

/-- The root of a store without other states is open, bare and not on the register. -/
theorem allocate_root {root : Handle} {σ : Store}
    (hallocate : Store.empty.allocate .root = (root, σ)) (grammar : Grammar) (document : Node) :
    Standing grammar root σ (fun _ => some document) {root} {root} := by
  have hplace := Store.place?_of_empty hallocate
  have hroot : σ.place? root = some .root := by
    rw [Store.place?_of_allocate (σ := .empty) Arena.sound_empty hallocate, if_pos rfl]
  have hlive : ∀ g, σ.Live g → g = root := fun g hlive => by
    obtain ⟨place, hat⟩ := hlive.place?
    exact (hplace g place hat).1
  have hregister : σ.register = [] := Store.register_of_allocate hallocate
  have hstateAt : ∀ place, σ.stateAt? place = none := fun place => by
    rw [Store.stateAt?, hregister]
    rfl
  -- All states but the root would be open or loose, so there is nothing else to show.
  exact {
    arena := Store.sound_of_allocate (σ := .empty) Arena.sound_empty hallocate
    keys := hregister ▸ List.nodup_nil
    registered := fun place h hregistered => by
      rw [hstateAt] at hregistered
      cases hregistered
    enrolled := fun place h hat hh => absurd (hlive h (Store.live_of_place? hat)) hh
    root_iff := fun h => ⟨fun hat => (hplace h _ hat).1, fun heq => heq ▸ hroot⟩
    rooted := fun h hh => ⟨[], .root (hlive h hh ▸ hroot)⟩
    linked := fun h hh hopen => absurd (hlive h hh) hopen
    settled := fun h state hstate hopen => absurd (hlive h ⟨state, hstate⟩) hopen
    owned := Store.owned_empty.of_allocate Arena.sound_empty hallocate }

end Standing

namespace Editor

variable {document : Node} {grammar : Grammar} {settings : Settings} {editor : Editor}

/-- An editor can be made of a valid document, and its states stand for it. -/
theorem exists_standing (hdocument : document.WellFormed) (hvalid : grammar.Valid document)
    (hgrammar : grammar.DistinctBranches) (settings : Settings) :
    ∃ editor ν, ofDocument document grammar settings = .ok editor ∧
      Standing editor.grammar editor.root editor.store ν ∅ ∅ ∧ ν editor.root = some document ∧
      editor.grammar = grammar ∧ editor.document = document ∧ editor.settings = settings ∧
      editor.history = .withLimit settings.maxUndoLevels := by
  cases hallocate : Store.empty.allocate .root with
  | mk root σ₁ =>
    have hplaces := Store.place?_of_empty hallocate
    have hstate : σ₁.get? root = some ⟨.root, .created, []⟩ := by
      rw [Store.get?_of_allocate (σ := .empty) Arena.sound_empty hallocate, if_pos rfl]
    -- The root is the only state, so nothing stands under it before its branches are made.
    obtain ⟨σ, ν, hsettle, hstanding, hgrows⟩ := Standing.install (H := ∅) (U := ∅)
      (by simpa using Standing.allocate_root hallocate grammar document)
      ⟨⟨_, hstate, rfl⟩, fun child name slot hat => nomatch (hplaces child _ hat).2⟩
      (Store.place?_eq_some.mpr ⟨_, hstate, rfl⟩) (fun g hat => (hplaces g _ hat).1)
      (.some (grammar.growsAs hgrammar root document hdocument hvalid))
    refine ⟨⟨grammar, document, σ, root, .withLimit settings.maxUndoLevels, settings⟩, ν, ?_,
      hstanding, ?_, rfl, rfl, rfl, rfl⟩
    · rw [ofDocument, show grammar.validate document = .ok () from hvalid, Store.create, hallocate]
      dsimp only
      rw [hsettle]
      rfl
    · exact hgrows.labels root ⟨_, hstate⟩

/-- An editor can be made of a valid document, and it mirrors the document. -/
theorem exists_ofDocument (hdocument : document.WellFormed) (hvalid : grammar.Valid document)
    (hgrammar : grammar.Distinct) (settings : Settings) :
    ∃ editor ν, ofDocument document grammar settings = .ok editor ∧ editor.Mirrors ν ∧
      editor.grammar = grammar ∧ editor.document = document ∧ editor.settings = settings ∧
      editor.history = .withLimit settings.maxUndoLevels := by
  obtain ⟨editor, ν, hmade, hstanding, hroot, rfl, rfl, hrest⟩ :=
    exists_standing hdocument hvalid hgrammar.branches settings
  exact ⟨editor, ν, hmade, ⟨hstanding, hroot, hdocument, hvalid, hgrammar⟩, rfl, rfl, hrest⟩

/-- An editor is made of valid documents only. -/
theorem valid_of_ofDocument (h : ofDocument document grammar settings = .ok editor) :
    grammar.Valid document := by
  obtain ⟨_, hvalid, -⟩ := bind_eq_ok.mp h
  exact refuseShape_eq_ok.mp (orRefuse_eq_ok.mp hvalid)

/-- What holds of an editor that was just made. -/
theorem mirrors_ofDocument (hdocument : document.WellFormed) (hgrammar : grammar.Distinct)
    (h : ofDocument document grammar settings = .ok editor) :
    (∃ ν, editor.Mirrors ν) ∧ editor.grammar = grammar ∧ editor.document = document ∧
      editor.settings = settings ∧ editor.history = .withLimit settings.maxUndoLevels := by
  obtain ⟨editor', ν, hmade, hmirrors, hrest⟩ :=
    exists_ofDocument hdocument (valid_of_ofDocument h) hgrammar settings
  rw [hmade] at h
  cases h
  exact ⟨⟨ν, hmirrors⟩, hrest⟩

end Editor

end TreeEditor
