import TreeEditor.Proofs.Toggling

/-!
# States that nothing can be changed through

Two kinds of handle cannot own a change: that of a state which was removed, and that of the vacant
state of an optional slot. A command that is addressed through either is refused and leaves the
editor as it is (`Editor.refused_of_through`). For a removed state the refusal is always of the
class of invalid states, since a command asks for the path of its owner first. For a vacant state
the class is that of the look-up which fails first: insertions and moves are refused since the owner
is not ready, and all others since it has no such property or no node, which is an invalid index.
-/

namespace TreeEditor

/-- A command is addressed through a state: the state owns the slot or the property that the command
names. -/
def Command.Through (s : Handle) : Command → Prop
  | .insert insertion => insertion.parent = s
  | .remove place | .replace place _ | .move place _ =>
    ∃ property slot, place = .within s property slot
  | .assign place _ | .unassign place => ∃ property, place = .within s property .optional
  | .insertBlock branch .. | .removeBlock branch _ | .splitBlock branch .. | .mergeBlocks branch _
  | .moveBlock branch .. | .changeReplication branch .. => branch.owner = s
  | .setValue state .. => state = s

/-- The class of the refusal of a command that is addressed through a vacant state. Insertions and
moves are planned without a look at their owner, which is then found not to be ready. -/
def Command.vacantCategory : Command → Category
  | .insert _ | .move .. => .invalidState
  | _ => .invalidIndex

/-- What a stale handle named is gone. -/
theorem Arena.get?_of_isStale {α : Type} {arena : Arena α} {handle : Handle}
    (h : arena.isStale handle = true) : arena.get? handle = none := by
  obtain ⟨generation, hgeneration, hlt | ⟨-, hnone⟩⟩ := isStale_iff.mp h
  · cases hvalue : arena.get? handle with
    | none => rfl
    | some value =>
      rw [generations, List.getElem?_map, get?_eq_some.mp hvalue] at hgeneration
      cases hgeneration
      exact absurd hlt (UInt32.lt_irrefl _)
  · exact hnone

namespace Editor

variable {editor : Editor} {ν : Handle → Option Node} {s : Handle} {command : Command}
  {path : Path} {state : State}

/-- A command is refused for a reason of a class, and the editor stays as it is. -/
def Refuses (editor : Editor) (command : Command) (category : Category) : Prop :=
  ∃ reason, editor.perform command = (.error (.refused reason), editor) ∧
    reason.category = category

/-- A command whose edit cannot be made is refused. -/
theorem perform_of_apply {edit : Edit} {refresh : Option Path} {failure : Failure}
    (hplanned : editor.plan command = .ok (edit, refresh))
    (hmade : editor.apply edit = .error failure) :
    editor.perform command = (.error failure, editor) := by
  rw [perform, hplanned]
  dsimp only
  rw [commit, hmade]

/-! ## Removed states -/

/-- The path of a removed state is asked for in vain. -/
theorem pathOf_of_isStale (h : editor.store.arena.isStale s = true) :
    editor.pathOf s = .error (.refused (.removedState s)) := by
  have hlive : editor.store.live s = .error (.removedState s) := by
    rw [Store.live, Store.get?, Arena.get?_of_isStale h]
    exact if_pos h
  rw [pathOf, Store.generations, pathWithin, hlive]
  rfl

/-- Every command asks for the path of the state that it is addressed through first. -/
theorem plan_of_pathOf {failure : Failure} (hthrough : command.Through s)
    (hpath : editor.pathOf s = .error failure) : editor.plan command = .error failure := by
  -- A look-up of a branch, of blocks or of an optional child begins with the path of the owner.
  have hbranch : ∀ property, editor.branchPathOf s property = .error failure := fun property => by
    rw [branchPathOf, hpath]
    rfl
  have hblocks : ∀ property, editor.blocksOf ⟨s, property⟩ = .error failure := fun property => by
    rw [blocksOf, hbranch]
    rfl
  have hoptional : ∀ property,
      editor.optionalOf (.within s property .optional) = .error failure := fun property => by
    rw [optionalOf_within, hbranch]
    rfl
  cases command with
  | insert insertion =>
    obtain rfl := hthrough
    rw [plan, hbranch]
    rfl
  | remove place =>
    obtain ⟨property, slot, rfl⟩ := hthrough
    simp only [plan, planRemove, splitPlace, orRefuse_ok, ok_bind, hbranch]
    rfl
  | replace place node =>
    obtain ⟨property, slot, rfl⟩ := hthrough
    simp only [plan, planReplace, splitPlace, orRefuse_ok, ok_bind, hbranch]
    rfl
  | move place delta =>
    obtain ⟨property, slot, rfl⟩ := hthrough
    simp only [plan, splitPlace, orRefuse_ok, ok_bind, hbranch]
    rfl
  | assign place node =>
    obtain ⟨property, rfl⟩ := hthrough
    rw [plan, planAssign, hoptional]
    rfl
  | unassign place =>
    obtain ⟨property, rfl⟩ := hthrough
    rw [plan, planUnassign, hoptional]
    rfl
  | insertBlock branch | removeBlock branch | splitBlock branch | mergeBlocks branch
  | moveBlock branch | changeReplication branch =>
    obtain rfl := hthrough
    rw [plan, hblocks branch.property]
    rfl
  | setValue owner =>
    obtain rfl := hthrough
    rw [plan, hpath]
    rfl

/-! ## Vacant states -/

/-- Every edit asks for the state of its owner first. -/
theorem apply_of_readyOwner {edit : Edit} {failure : Failure}
    (h : editor.readyOwner edit.site.owner = .error failure) :
    editor.apply edit = .error failure := by
  cases edit <;> dsimp only [Edit.site] at h <;>
    simp only [apply, applyInsert, applyRemove, applyReplace, applyMove, applyAssign,
      applyUnassign, applyInsertBlock, applyRemoveBlock, applySplitBlock, applyMergeBlocks,
      applyMoveBlock, applyChangeReplication, applySetValue, h, error_bind]

section

variable (hmirrors : editor.Mirrors ν) (hstate : editor.store.get? s = some state)
  (hvacant : state.stage = .vacant)

include hmirrors hstate hvacant

/-- A vacant state is not ready to own an edit. -/
theorem readyOwner_of_vacant (hclimbs : editor.store.Climbs s path) :
    editor.readyOwner path = .error (.refused (.notReady s path .vacant)) := by
  rw [readyOwner, (resolve_eq_ok hmirrors).mpr hclimbs, orRefuse_ok, ok_bind,
    Store.expect_eq_ok.mpr hstate, ok_bind, hvacant]
  rfl

/-- A vacant state has no branches. -/
theorem branch_of_vacant (property : String) :
    editor.store.branch s property = .error (.noBranch ⟨s, property⟩) := by
  rw [Store.branch, Store.live_eq_ok.mpr hstate, ok_bind, branches_eq_nil hmirrors hstate hvacant]
  rfl

/-- At the path of a vacant state, which leads into an optional slot, the document has no node. -/
theorem nodeAt_of_vacant (hclimbs : editor.store.Climbs s path) : ∃ property,
    editor.nodeAt path = .error (.noNodeAt ⟨property, .optional⟩) := by
  have hσ := hmirrors.standing
  have hnone : ν s = none :=
    (hσ.settled s state hstate (Set.notMem_empty s)).vacant_iff.mp hvacant
  -- The root always has a node, and only the state of an optional slot can be without.
  cases hclimbs with
  | root hplace =>
    rw [(hσ.root_iff s).mp hplace, hmirrors.document] at hnone
    cases hnone
  | @within _ parent name slot up hplace hup =>
    obtain ⟨locus, rfl, hslot⟩ := exists_locus_of_place? hmirrors hup hplace
    obtain ⟨rfl, hkind⟩ := locus.reflects.slot_of_none hslot hnone
    have hlabel := locus.reflects.label_eq hslot
    rw [hnone] at hlabel
    have hproperty := locus.property?
    generalize locus.property = P at hkind hlabel hproperty
    cases P with
    | optional assigned item =>
      have hread := Node.optional_eq_ok.mpr hproperty
      refine ⟨name, ?_⟩
      rw [nodeAt, Node.descend_append, ← nodeAt, locus.nodeAt_eq_ok, ok_bind]
      rw [Node.descend, Node.step]
      dsimp only
      rw [hread, refuseShape_ok, ok_bind]
      cases assigned with
      | false => rfl
      | true =>
        cases item with
        | none => rfl
        | some node => cases hlabel
    | _ => cases hkind

/-- A command that is addressed through a vacant state is refused, and the editor stays as it is. -/
theorem refuses_of_vacant (hthrough : command.Through s) :
    editor.Refuses command command.vacantCategory := by
  obtain ⟨path, hclimbs⟩ := hmirrors.standing.rooted s ⟨state, hstate⟩
  have hbranch := branchPathOf_of_climbs hclimbs
  have hstates := branch_of_vacant hmirrors hstate hvacant
  have hblocks : ∀ property, editor.blocksOf ⟨s, property⟩ =
      .error (.refused (.noBranch ⟨s, property⟩)) := fun property => by
    rw [blocksOf, hbranch, ok_bind, Store.blocks, hstates]
    rfl
  obtain ⟨name, hnode⟩ := nodeAt_of_vacant hmirrors hstate hvacant hclimbs
  have hoptional : ∀ property, editor.optionalOf (.within s property .optional) =
      .error (.refused (.noNodeAt ⟨name, .optional⟩)) := fun property => by
    rw [optionalOf_within, hbranch, ok_bind, hnode]
    rfl
  have hrefused : ∀ {edit : Edit}, edit.site.owner = path →
      editor.apply edit = .error (.refused (.notReady s path .vacant)) := fun hedit =>
    apply_of_readyOwner (hedit.symm ▸ readyOwner_of_vacant hmirrors hstate hvacant hclimbs)
  -- Insertions and moves get as far as the edit; the others fail while they are planned.
  cases command with
  | insert insertion =>
    obtain rfl := hthrough
    have hplanned : editor.plan (.insert insertion) =
        .ok (planInsert ⟨path, insertion.property⟩ insertion.target insertion.node, none) := by
      rw [plan, hbranch]
      rfl
    refine ⟨_, perform_of_apply hplanned (hrefused ?_), rfl⟩
    cases insertion.target <;> rfl
  | move place delta =>
    obtain ⟨property, slot, rfl⟩ := hthrough
    have hplanned : editor.plan (.move (.within s property slot) delta) =
        .ok (.move ⟨path, property⟩ slot delta, none) := by
      simp only [plan, splitPlace, orRefuse_ok, ok_bind, hbranch]
      rfl
    exact ⟨_, perform_of_apply hplanned (hrefused rfl), rfl⟩
  | remove place =>
    obtain ⟨property, slot, rfl⟩ := hthrough
    have hplanned : editor.plan (.remove (.within s property slot)) =
        .error (.refused (.noBranch ⟨s, property⟩)) := by
      simp only [plan, planRemove, splitPlace, orRefuse_ok, ok_bind, hbranch, hstates]
      rfl
    exact ⟨_, perform_of_plan hplanned, rfl⟩
  | replace place node =>
    obtain ⟨property, slot, rfl⟩ := hthrough
    have hplanned : editor.plan (.replace (.within s property slot) node) =
        .error (.refused (.noBranch ⟨s, property⟩)) := by
      simp only [plan, planReplace, splitPlace, orRefuse_ok, ok_bind, hbranch, hstates]
      rfl
    exact ⟨_, perform_of_plan hplanned, rfl⟩
  | assign place node =>
    obtain ⟨property, rfl⟩ := hthrough
    exact ⟨_, perform_of_plan (by rw [plan, planAssign, hoptional]; rfl), rfl⟩
  | unassign place =>
    obtain ⟨property, rfl⟩ := hthrough
    exact ⟨_, perform_of_plan (by rw [plan, planUnassign, hoptional]; rfl), rfl⟩
  | insertBlock branch | removeBlock branch | splitBlock branch | mergeBlocks branch
  | moveBlock branch | changeReplication branch =>
    obtain rfl := hthrough
    exact ⟨_, perform_of_plan (by rw [plan, hblocks branch.property]; rfl), rfl⟩
  | setValue owner property value =>
    obtain rfl := hthrough
    have hplanned : editor.plan (.setValue owner property value) =
        .error (.refused (.noNodeAt ⟨name, .optional⟩)) := by
      rw [plan, pathOf_eq_ok.mpr hclimbs, ok_bind, hnode]
      rfl
    exact ⟨_, perform_of_plan hplanned, rfl⟩

end

/-! ## Both -/

/-- A command that is addressed through a stale handle is refused as one for an invalid state, and
so are an insertion into and a move inside a vacant state; any other command through a vacant state
is refused for an invalid index. The editor stays as it is in any case. -/
theorem refused_of_through (h : editor.Reachable) (hthrough : command.Through s) :
    (editor.store.arena.isStale s = true → editor.Refuses command .invalidState) ∧
      ∀ state, editor.store.get? s = some state → state.stage = .vacant →
        editor.Refuses command command.vacantCategory := by
  obtain ⟨ν, hmirrors⟩ := h.steady.sound
  refine ⟨fun hstale => ⟨.removedState s, ?_, rfl⟩, fun state hstate hvacant =>
    refuses_of_vacant hmirrors hstate hvacant hthrough⟩
  exact perform_of_plan (plan_of_pathOf hthrough (pathOf_of_isStale hstale))

/-- A run after which an item is removed. -/
def removingRun : List Request := [.command (.remove (.within ⟨0, 0⟩ "items" (.list 0)))]

/-- After such a run the value of the removed item cannot be set, nothing can be inserted into the
slot that is vacant, and the slot has no block to be removed. -/
theorem refused_of_removingRun : ∃ editor : Editor, editor.Reachable ∧
    editor.store.arena.isStale ⟨2, 0⟩ = true ∧
    (editor.store.get? ⟨4, 0⟩).map State.stage = some .vacant ∧
    editor.Refuses (.setValue ⟨2, 0⟩ "size" (.boolean true)) .invalidState ∧
    editor.Refuses (.insert ⟨⟨4, 0⟩, "items", .list 0, .bare "N"⟩) .invalidState ∧
    editor.Refuses (.removeBlock ⟨⟨4, 0⟩, "groups"⟩ 0) .invalidIndex := by
  obtain ⟨start, hstart, htest⟩ := exists_start (d := .sample) (g := .free) (s := .standard)
    (p := fun start => match runAll removingRun start with
      | .error _ => false
      | .ok (_, editor) => editor.store.arena.isStale ⟨2, 0⟩ &&
        (editor.store.get? ⟨4, 0⟩).map State.stage = some .vacant) (by cbv)
  split at htest
  · cases htest
  · rename_i answers editor hrun
    simp only [Bool.and_eq_true, decide_eq_true_eq] at htest
    obtain ⟨hstale, hvacant⟩ := htest
    have hreachable : editor.Reachable := ⟨.sample, .free, .standard, start, removingRun, answers,
      Node.wellFormed_sample, Grammar.distinct_free, hstart, by decide, hrun⟩
    have hset : Command.Through ⟨2, 0⟩ (.setValue ⟨2, 0⟩ "size" (.boolean true)) := rfl
    have hinsert : Command.Through ⟨4, 0⟩ (.insert ⟨⟨4, 0⟩, "items", .list 0, .bare "N"⟩) := rfl
    have hremove : Command.Through ⟨4, 0⟩ (.removeBlock ⟨⟨4, 0⟩, "groups"⟩ 0) := rfl
    obtain ⟨state, hstate, hstage⟩ := Option.map_eq_some_iff.mp hvacant
    exact ⟨editor, hreachable, hstale, hvacant, (refused_of_through hreachable hset).1 hstale,
      (refused_of_through hreachable hinsert).2 state hstate hstage,
      (refused_of_through hreachable hremove).2 state hstate hstage⟩

/-- A document with an optional child that is not assigned. -/
def hollow : Node := .mk "Root" [("o", .optional false none)]

/-- A removal through the vacant state of its slot is refused for an invalid index, not for an
invalid state. -/
theorem refused_of_hollow : ∃ (start : Editor) (state : State) (reason : Refusal),
    ofDocument hollow .free .standard = .ok start ∧ start.store.get? ⟨1, 0⟩ = some state ∧
      state.stage = .vacant ∧
      start.perform (.remove (.within ⟨1, 0⟩ "p" (.list 0))) = (.error (.refused reason), start) ∧
      reason.category = .invalidIndex ∧ reason.category ≠ .invalidState := by
  obtain ⟨start, hstart, htest⟩ := exists_start (d := hollow) (g := .free) (s := .standard)
    (p := fun start => (start.store.get? ⟨1, 0⟩).map State.stage = some .vacant &&
      match start.plan (.remove (.within ⟨1, 0⟩ "p" (.list 0))) with
      | .error (.refused reason) => reason.category = .invalidIndex
      | _ => false) (by cbv)
  simp only [Bool.and_eq_true, decide_eq_true_eq] at htest
  obtain ⟨hvacant, hrefused⟩ := htest
  obtain ⟨state, hstate, hstage⟩ := Option.map_eq_some_iff.mp hvacant
  split at hrefused
  · rename_i reason hplanned
    have hcategory := of_decide_eq_true hrefused
    exact ⟨start, state, reason, hstart, hstate, hstage, perform_of_plan hplanned, hcategory,
      by rw [hcategory]; decide⟩
  · cases hrefused

end Editor

end TreeEditor
