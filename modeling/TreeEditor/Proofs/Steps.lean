import TreeEditor.Proofs.Standing

/-!
# Steps of a standing store

Each step of the store keeps a store standing: a change of an open state, making a state, putting it
on the register and taking a state out that holds nothing. What may be open or loose before and
after says what the step asks for and what it leaves to be done.
-/

namespace TreeEditor.Standing

variable {grammar : Grammar} {root h : Handle} {σ σ' : Store} {ν ν' : Handle → Option Node}
  {H H' U U' : Set Handle}

/-- An open state may be changed in any way that leaves it where it stands and gives it no branches
of others. -/
theorem modify (hσ : Standing grammar root σ ν H U) (hopen : h ∈ H) {change : State → State}
    (hplace : ∀ state, (change state).place = state.place)
    (howned : ∀ state, state.OwnedBy h → (change state).OwnedBy h) :
    Standing grammar root (σ.modify h change) ν H U := by
  have hplaces := Store.place?_modify (σ := σ) hplace h
  refine hσ.transfer (hσ.arena.modify h change) hσ.keys ?_ ?_ ?_ ?_ (hσ.owned.modify howned) ?_
  · intro place g hat
    rw [hplaces]
    exact hσ.registered place g hat
  · intro place g hat hloose
    rw [hplaces] at hat
    exact hσ.enrolled place g hat hloose
  · intro g
    rw [hplaces]
    exact hσ.root_iff g
  · intro g hlive
    obtain ⟨place, hat⟩ := hlive.place?
    rw [hplaces] at hat
    obtain ⟨path, hclimbs⟩ := hσ.rooted g (Store.live_of_place? hat)
    exact ⟨path, hclimbs.mono fun g place hat => (hplaces g).trans hat⟩
  · intro g state hget hclosed
    have hne : g ≠ h := fun heq => hclosed (heq ▸ hopen)
    rw [Store.get?_modify, if_neg hne] at hget
    exact ⟨hclosed, ⟨state, hget, rfl, rfl⟩, fun name slot child => by rw [hplaces]⟩

/-- An open state may be moved to any stage. -/
theorem setStage (hσ : Standing grammar root σ ν H U) (hopen : h ∈ H) (stage : Stage) :
    Standing grammar root (σ.setStage h stage) ν H U :=
  hσ.modify hopen (fun _ => by rfl) fun _ => id

/-- An open state may be given any branch. -/
theorem setBranch (hσ : Standing grammar root σ ν H U) (hopen : h ∈ H) (name : String)
    (branch : Branch) : Standing grammar root (σ.setBranch h name branch) ν H U :=
  hσ.modify hopen (fun _ => by rfl) fun _ howned => howned.setBranch name branch

/-- A state can be made for a slot of an open state. It is open and loose at first. -/
theorem allocate (hσ : Standing grammar root σ ν H U) {parent c : Handle} {name : String}
    {slot : Slot} (hallocate : σ.allocate (.within parent name slot) = (c, σ'))
    (hparent : σ.Live parent) (hopen : parent ∈ H) :
    Standing grammar root σ' ν (insert c H) (insert c U) := by
  have hget := Store.get?_of_allocate hσ.arena hallocate
  have hplace := Store.place?_of_allocate hσ.arena hallocate
  have hne : ∀ g place, σ.place? g = some place → g ≠ c := fun _ _ hat =>
    Store.ne_of_allocate hσ.arena hallocate (Store.live_of_place? hat)
  have hkept : ∀ g place, σ.place? g = some place → σ'.place? g = some place := fun _ _ =>
    Store.place?_mono_of_allocate hσ.arena hallocate
  have hregister := Store.register_of_allocate hallocate
  have hstateAt : ∀ place, σ'.stateAt? place = σ.stateAt? place := fun place => by
    rw [Store.stateAt?, hregister, Store.stateAt?]
  refine hσ.transfer (Store.sound_of_allocate hσ.arena hallocate) (hregister ▸ hσ.keys)
    ?_ ?_ ?_ ?_ (hσ.owned.of_allocate hσ.arena hallocate) ?_
  · intro place g hat
    rw [hstateAt] at hat
    exact hkept g place (hσ.registered place g hat)
  · intro place g hat hloose
    have hg : g ≠ c := fun heq => hloose (heq ▸ Set.mem_insert _ _)
    rw [hplace, if_neg hg] at hat
    rw [hstateAt]
    exact hσ.enrolled place g hat fun hmem => hloose (Set.mem_insert_of_mem _ hmem)
  · intro g
    rw [hplace]
    by_cases hg : g = c
    · rw [if_pos hg, hg]
      refine ⟨nofun, fun heq => ?_⟩
      exact absurd heq (hne root .root ((hσ.root_iff root).mpr rfl)).symm
    · rw [if_neg hg]
      exact hσ.root_iff g
  · intro g hlive
    obtain ⟨place, hat⟩ := hlive.place?
    by_cases hg : g = c
    · obtain ⟨path, hclimbs⟩ := hσ.rooted parent hparent
      have hat' : σ'.place? g = some (.within parent name slot) := by rw [hplace, if_pos hg]
      exact ⟨_, .within hat' (hclimbs.mono hkept)⟩
    · rw [hplace, if_neg hg] at hat
      obtain ⟨path, hclimbs⟩ := hσ.rooted g (Store.live_of_place? hat)
      exact ⟨path, hclimbs.mono hkept⟩
  · intro g state hstate hclosed
    have hg : g ≠ c := fun heq => hclosed (heq ▸ Set.mem_insert _ _)
    have hgH : g ∉ H := fun hmem => hclosed (Set.mem_insert_of_mem _ hmem)
    rw [hget, if_neg hg] at hstate
    refine ⟨hgH, ⟨state, hstate, rfl, rfl⟩, fun name' slot' child => ?_⟩
    -- The new state stands in a slot of an open state, so the slots of the others are as they were.
    rw [hplace]
    by_cases hchild : child = c
    · rw [if_pos hchild, hchild]
      constructor
      · intro hat
        cases hat
        exact absurd hopen hgH
      · intro hat
        exact absurd rfl (hne c _ hat)
    · rw [if_neg hchild]

/-- States that are not live are not missing from the register. -/
theorem tighten (hσ : Standing grammar root σ ν H U) (hdead : ∀ g ∈ U, σ.Live g → g ∈ U') :
    Standing grammar root σ ν H U' :=
  { hσ with
    enrolled := fun place g hplace hloose => hσ.enrolled place g hplace fun hmem =>
      hloose (hdead g hmem (Store.live_of_place? hplace)) }

/-- A state can be registered where it stands, if nothing else is to be registered there. -/
theorem enroll (hσ : Standing grammar root σ ν H U) {place : Place}
    (hat : σ.place? h = some place) (hU : ∀ g ∈ U, g = h ∨ g ∈ U')
    (hothers : ∀ g, σ.place? g = some place → g = h ∨ g ∈ U') :
    Standing grammar root (σ.enroll place h) ν H U' := by
  refine hσ.transfer hσ.arena (Table.nodup_keys_set hσ.keys h) ?_ ?_ hσ.root_iff ?_ hσ.owned ?_
  · intro other g hleads
    rw [Store.stateAt?_enroll] at hleads
    split at hleads
    · rename_i heq
      cases hleads
      rw [heq]
      exact hat
    · exact hσ.registered other g hleads
  · -- A state that stood at another place is on the register there as before, unless it was loose.
    intro other g hstands hloose
    rw [Store.stateAt?_enroll]
    split
    · rename_i heq
      rw [heq] at hstands
      rw [(hothers g hstands).resolve_right hloose]
    · rename_i hne
      refine hσ.enrolled other g hstands fun hmem => ?_
      have hg := (hU g hmem).resolve_right hloose
      rw [hg] at hstands
      cases hat.symm.trans hstands
      exact hne rfl
  · intro g hlive
    obtain ⟨path, hclimbs⟩ := hσ.rooted g hlive
    exact ⟨path, hclimbs.mono fun _ _ hstands => hstands⟩
  · exact fun g state hget hclosed => ⟨hclosed, ⟨state, hget, rfl, rfl⟩, fun _ _ _ => Iff.rfl⟩

/-- A state can be taken out that holds nothing and whose parent is open. -/
theorem remove (hσ : Standing grammar root σ ν H U) {state : State} {arena : Arena State}
    {parent : Handle} {name : String} {slot : Slot}
    (hremove : σ.arena.remove h = some (state, arena))
    (hplace : σ.place? h = some (.within parent name slot)) (hopen : parent ∈ H)
    (hleaf : ∀ child name slot, σ.place? child ≠ some (.within h name slot))
    (hH : ∀ g ∈ H, g = h ∨ g ∈ H') :
    Standing grammar root (({ σ with arena } : Store).dismiss state.place h) ν H' U := by
  have hstate := Store.get?_of_remove hremove
  have hstands : state.place = .within parent name slot := by
    rwa [Store.place?, hstate, Option.map_some, Option.some.injEq] at hplace
  have hat : σ.place? h = some state.place := hplace.trans (congrArg some hstands.symm)
  have hstateAt : ∀ place, (({ σ with arena } : Store).dismiss state.place h).stateAt? place =
      if place = state.place ∧ σ.stateAt? state.place = some h then none
      else σ.stateAt? place := fun place => Store.stateAt?_dismiss state.place place h
  have hplaces := Store.place?_remove hremove
  refine hσ.transfer ?_ (Store.nodup_keys_dismiss hσ.keys) ?_ ?_ ?_ ?_ ?_ ?_
  · rw [Store.arena_dismiss]
    exact hσ.arena.remove hremove
  · intro place g hleads
    rw [hstateAt] at hleads
    split at hleads
    · cases hleads
    · rename_i hkept
      have hg := hσ.registered place g hleads
      rw [hplaces, if_neg]
      · exact hg
      · rintro rfl
        cases hat.symm.trans hg
        exact hkept ⟨rfl, hleads⟩
  · intro place g hg hloose
    rw [hplaces] at hg
    split at hg
    · cases hg
    · rename_i hne
      have hleads := hσ.enrolled place g hg hloose
      rw [hstateAt, if_neg]
      · exact hleads
      · rintro ⟨rfl, hh⟩
        rw [hleads] at hh
        cases hh
        exact hne rfl
  · intro g
    rw [hplaces]
    split
    · rename_i heq
      rw [heq]
      refine iff_of_false (Option.some_ne_none _).symm fun hroot => ?_
      rw [(hσ.root_iff h).mpr hroot] at hplace
      cases hplace
    · exact hσ.root_iff g
  · intro g hlive
    obtain ⟨place, hg⟩ := hlive.place?
    rw [hplaces] at hg
    split at hg
    · cases hg
    · rename_i hne
      obtain ⟨path, hclimbs⟩ := hσ.rooted g (Store.live_of_place? hg)
      -- Nothing stands in a slot of the state, so no way up goes through it.
      refine ⟨path, hclimbs.congr fun up hup => ?_⟩
      rw [hplaces, if_neg]
      rintro rfl
      exact hne (hup.eq_of_leaf hleaf)
  · intro g state' hstate'
    rw [Store.get?_remove hremove] at hstate'
    split at hstate'
    · cases hstate'
    · exact hσ.owned g state' hstate'
  · intro g state' hstate' hclosed
    rw [Store.get?_remove hremove] at hstate'
    have hne : g ≠ h := by
      rintro rfl
      rw [if_pos rfl] at hstate'
      cases hstate'
    have hgH : g ∉ H := fun hmem => (hH g hmem).elim hne hclosed
    rw [if_neg hne] at hstate'
    refine ⟨hgH, ⟨state', hstate', rfl, rfl⟩, fun name' slot' child => ?_⟩
    · rw [hplaces]
      split
      · rename_i heq
        rw [heq, hplace]
        refine iff_of_false (Option.some_ne_none _).symm fun hsame => ?_
        cases hsame
        exact hgH hopen
      · rfl

end TreeEditor.Standing
