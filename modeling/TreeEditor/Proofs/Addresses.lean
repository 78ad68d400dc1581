import TreeEditor.Proofs.Runs

/-!
# The addresses of a state

A state can be named in three ways: by its handle, by the path from the root down to it, and by the
place that the register has it at. Going up from a handle collects the path, going down the path
follows the branches, and a place is looked up in one step. The three agree for every editor that a
run leaves (`Editor.addressed_of_reachable`): each address leads to the others, and a slot has an
address exactly when a state stands in it.

Going up has no bound of its own. It ends because no way up meets a state twice, so that a path is
shorter than the number of states.
-/

namespace TreeEditor.Editor

variable {editor : Editor} {ν : Handle → Option Node} {h parent : Handle} {property : String}
  {slot : Slot} {path : Path}

/-- Handles, paths and places are addresses of the same states. -/
structure Addressed (editor : Editor) : Prop where
  /-- Going up from a state comes to an end after at most as many steps as there are states. -/
  ends : ∀ h, editor.store.Live h → ∃ path, path.length < editor.stateCount ∧
    ∀ generations, path.length < generations → editor.pathWithin generations h = .ok path
  /-- The path of a state leads back to it, and where the path ends the state stands and is
  registered. -/
  leads : ∀ h state, editor.store.get? h = some state → ∃ path, editor.pathOf h = .ok path ∧
    editor.resolve path = .ok h ∧ editor.placeAt path = .ok state.place ∧
      editor.stateAt? state.place = some h
  /-- A path that leads to a state is the path of the state. -/
  returns : ∀ path h, editor.resolve path = .ok h → editor.pathOf h = .ok path
  /-- A slot has a place exactly when a state is registered there. -/
  exists_iff : ∀ parent property slot,
    (∃ place, editor.placeOf parent property slot = .ok place) ↔
      ∃ h, editor.stateAt? (.within parent property slot) = some h
  /-- The state that is registered for a slot is the one that the branch has there. -/
  holds : ∀ parent property slot h, editor.stateAt? (.within parent property slot) = some h →
    editor.placeOf parent property slot = .ok (.within parent property slot) ∧
      ∃ branch, editor.store.branch parent property = .ok branch ∧ branch.childAt? slot = some h

/-! ## Places -/

/-- A slot has a place when the branch has a child there. -/
theorem placeOf_eq_ok {place : Place} : editor.placeOf parent property slot = .ok place ↔
    place = .within parent property slot ∧ ∃ branch,
      editor.store.branch? parent property = some branch ∧
        ∃ child, branch.childAt? slot = some child := by
  unfold placeOf
  constructor
  · intro hplace
    obtain ⟨branch, hbranch, hplace⟩ := bind_eq_ok.mp hplace
    obtain ⟨_, hslot, hplace⟩ := bind_eq_ok.mp hplace
    cases hplace
    have hcheck : branch.checkSlot property slot = .ok () := by
      cases hresult : branch.checkSlot property slot with
      | ok => rfl
      | error reason => rw [hresult] at hslot; cases hslot
    exact ⟨rfl, branch, Store.branch_eq_ok.mp hbranch, Branch.checkSlot_eq_ok.mp hcheck⟩
  · rintro ⟨rfl, branch, hbranch, hchild⟩
    rw [Store.branch_eq_ok.mpr hbranch, ok_bind, Branch.checkSlot_eq_ok.mpr hchild]
    rfl

/-- A state is registered where it stands. -/
theorem stateAt?_iff (hmirrors : editor.Mirrors ν) {place : Place} :
    editor.stateAt? place = some h ↔ editor.store.place? h = some place :=
  ⟨hmirrors.standing.registered place h,
    fun hat => hmirrors.standing.enrolled place h hat (Set.notMem_empty h)⟩

/-- A state is registered for a slot when the branch has it there. -/
theorem stateAt?_within (hmirrors : editor.Mirrors ν) :
    editor.stateAt? (.within parent property slot) = some h ↔
      ∃ branch, editor.store.branch? parent property = some branch ∧
        branch.childAt? slot = some h := by
  have hσ := hmirrors.standing
  rw [stateAt?_iff hmirrors]
  constructor
  · intro hat
    have hlive := hσ.parent_live hat
    exact (hσ.linked parent hlive (Set.notMem_empty parent) property slot h).mp hat
  · rintro ⟨branch, hbranch, hchild⟩
    obtain ⟨state, hstate, -⟩ := Option.bind_eq_some_iff.mp hbranch
    exact (hσ.linked parent ⟨state, hstate⟩ (Set.notMem_empty parent) property slot h).mpr
      ⟨branch, hbranch, hchild⟩

/-- The place that the path of a state ends in is where the state stands. -/
theorem placeAt_of_climbs (hmirrors : editor.Mirrors ν) (hclimbs : editor.store.Climbs h path)
    {place : Place} (hplace : editor.store.place? h = some place) :
    editor.placeAt path = .ok place := by
  cases hclimbs with
  | root hroot =>
    rw [hroot] at hplace
    cases hplace
    rfl
  | @within _ parent property slot above hwithin up =>
    rw [hwithin] at hplace
    cases hplace
    -- The last step names the slot, and the steps before it lead to the state that has it.
    have hsplit : Path.split? (above ++ [⟨property, slot⟩]) = some (above, ⟨property, slot⟩) := by
      simp [Path.split?]
    have hparent : editor.resolve above = .ok parent := (resolve_eq_ok hmirrors).mpr up
    obtain ⟨branch, hbranch, hchild⟩ :=
      (stateAt?_within hmirrors).mp ((stateAt?_iff hmirrors).mpr hwithin)
    rw [placeAt, hsplit]
    dsimp only
    rw [hparent, ok_bind]
    exact placeOf_eq_ok.mpr ⟨rfl, branch, hbranch, h, hchild⟩

/-! ## Editors that runs leave -/

/-- The three addresses agree where the states stand for the document. -/
theorem Mirrors.addressed (hmirrors : editor.Mirrors ν) : editor.Addressed where
  ends h hlive := by
    -- The bound of the recursion is never met, because the way up is shorter.
    obtain ⟨path, hclimbs⟩ := hmirrors.standing.rooted h hlive
    have hlt := hclimbs.length_lt
    rw [← hmirrors.standing.arena.size_eq] at hlt
    exact ⟨path, hlt, fun generations => pathWithin_eq_ok hclimbs⟩
  leads h state hstate := by
    obtain ⟨path, hclimbs⟩ := hmirrors.standing.rooted h ⟨state, hstate⟩
    have hplace : editor.store.place? h = some state.place :=
      Store.place?_eq_some.mpr ⟨state, hstate, rfl⟩
    exact ⟨path, pathOf_eq_ok.mpr hclimbs, (resolve_eq_ok hmirrors).mpr hclimbs,
      placeAt_of_climbs hmirrors hclimbs hplace, (stateAt?_iff hmirrors).mpr hplace⟩
  returns path h hresolve := pathOf_eq_ok.mpr ((resolve_eq_ok hmirrors).mp hresolve)
  exists_iff parent property slot := by
    simp only [placeOf_eq_ok, exists_eq_left, stateAt?_within hmirrors]
    exact ⟨fun ⟨branch, hbranch, child, hchild⟩ => ⟨child, branch, hbranch, hchild⟩,
      fun ⟨child, branch, hbranch, hchild⟩ => ⟨branch, hbranch, child, hchild⟩⟩
  holds parent property slot h hat := by
    obtain ⟨branch, hbranch, hchild⟩ := (stateAt?_within hmirrors).mp hat
    exact ⟨placeOf_eq_ok.mpr ⟨rfl, branch, hbranch, h, hchild⟩, branch,
      Store.branch_eq_ok.mpr hbranch, hchild⟩

/-- Whatever was asked of an editor before, handles, paths and places are addresses of the same
states. -/
theorem addressed_of_reachable (h : editor.Reachable) : editor.Addressed := by
  obtain ⟨ν, hmirrors⟩ := h.steady.sound
  exact hmirrors.addressed

/-- A run in which siblings change places: an item is put in front of the others and one of the
blocks is moved. -/
def shiftingRun : List Request :=
  [.command (.insert ⟨⟨0, 0⟩, "items", .list 0, .bare "New"⟩),
    .command (.moveBlock ⟨⟨0, 0⟩, "groups"⟩ 0 1), .undo, .redo]

/-- After such a run the addresses still agree: the item that was the first one has the path of the
second one. -/
theorem addressed_shifted : ∃ editor : Editor, editor.Reachable ∧ editor.Addressed ∧
    (editor.pathOf ⟨2, 0⟩).toOption = some [⟨"items", .list 1⟩] := by
  obtain ⟨start, hstart, hrun⟩ := exists_start (d := .sample) (g := .free) (s := .standard)
    (p := fun start => match runAll shiftingRun start with
      | .ok (_, last) => (last.pathOf ⟨2, 0⟩).toOption = some [⟨"items", .list 1⟩]
      | .error _ => false) (by cbv)
  cases hlast : runAll shiftingRun start with
  | error breach => rw [hlast] at hrun; cases hrun
  | ok found =>
    obtain ⟨answers, last⟩ := found
    rw [hlast] at hrun
    have hreachable : last.Reachable := ⟨.sample, .free, .standard, start, shiftingRun, answers,
      Node.wellFormed_sample, Grammar.distinct_free, hstart, by decide, hlast⟩
    exact ⟨last, hreachable, addressed_of_reachable hreachable, of_decide_eq_true hrun⟩

end TreeEditor.Editor
