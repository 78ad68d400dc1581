import TreeEditor.Proofs.Arena
import TreeEditor.Proofs.Table
import TreeEditor.Store.Removal
import TreeEditor.Store.Growth

/-!
# Looking into a store

What each step of the store changes, seen through the three ways of looking into it: the state of a
handle, the place of a handle and the handle that a place is registered for. The journal is of no
account here, so announcing an event changes nothing.

The places of states lead from each of them up to the root. `Store.Climbs` follows them and collects
the path on the way; `Store.Under` says that one state is met on the way up from another. A way up
holds every state at most once, so no path is as long as there are states
(`Store.Climbs.length_lt`), which is what bounds the recursions over a store.
-/

namespace TreeEditor

namespace State

variable {state : State} {owner : Handle} {name : String} {branch : Branch}

/-- All branches of a state were made for that one. -/
def OwnedBy (state : State) (owner : Handle) : Prop := ∀ entry ∈ state.inners, entry.2.owner = owner

/-- A state has the same branches in every stage. -/
theorem branches_stage (state : State) (stage : Stage) :
    ({ state with stage } : State).branches = state.branches := rfl

@[simp]
theorem branches_bare (state : State) : ({ state with inners := [] } : State).branches = [] := rfl

/-- The branch under a name is that of the inner. -/
theorem get?_branches (state : State) (name : String) :
    Table.get? name state.branches = (Table.get? name state.inners).map Inner.branch :=
  Table.get?_map Inner.branch name state.inners

@[simp]
theorem branches_setBranch (state : State) (owner : Handle) (name : String) (branch : Branch) :
    (state.setBranch owner name branch).branches = Table.set name branch state.branches := by
  unfold setBranch branches
  rw [Table.map_set Inner.branch]
  split <;> rfl

/-- A branch that is put in is that of the owner of the others. -/
theorem OwnedBy.setBranch (h : state.OwnedBy owner) (name : String) (branch : Branch) :
    (state.setBranch owner name branch).OwnedBy owner := by
  intro entry hentry
  rcases Table.mem_set hentry with rfl | hmem
  · split
    · rename_i inner hinner
      exact h (name, inner) (Table.mem_of_get? hinner)
    · rfl
  · exact h entry hmem

/-- The inners of a state that owns its branches are the branches with the state as the owner. -/
theorem OwnedBy.inners_eq (h : state.OwnedBy owner) :
    state.inners = state.branches.map fun entry => (entry.1, ⟨owner, entry.2⟩) := by
  rw [branches, List.map_map]
  conv_lhs => rw [← List.map_id state.inners]
  refine List.map_congr_left fun entry hentry => ?_
  rw [← h entry hentry]
  rfl

/-- The inners of a state that owns its branches are released as the branches of the state. -/
theorem OwnedBy.foldlM_releaseWith (h : state.OwnedBy owner)
    (remove : Handle → Store → Except Failure Store) (σ : Store) :
    state.inners.foldlM (fun σ (property, inner) =>
      Store.releaseWith remove inner.owner property inner.branch σ) σ =
    state.branches.foldlM (fun σ (property, branch) =>
      Store.releaseWith remove owner property branch σ) σ := by
  rw [h.inners_eq, List.foldlM_map]

/-- Of two branches put in for a property the second one stays. -/
theorem setBranch_setBranch (state : State) (owner : Handle) (name : String)
    (branch branch' : Branch) : (state.setBranch owner name branch).setBranch owner name branch' =
      state.setBranch owner name branch' := by
  unfold setBranch
  simp only [Table.get?_set_same, Table.set_set]
  split <;> rfl

/-- Putting in the branch that is there changes nothing. -/
theorem setBranch_self (h : Table.get? name state.branches = some branch) :
    state.setBranch owner name branch = state := by
  rw [get?_branches, Option.map_eq_some_iff] at h
  obtain ⟨inner, hinner, rfl⟩ := h
  unfold setBranch
  rw [hinner]
  dsimp only
  rw [Table.set_get? hinner]

end State

namespace Store

variable {σ σ' : Store} {g h : Handle}

/-- The place of a state. -/
def place? (σ : Store) (h : Handle) : Option Place := (σ.get? h).map State.place

/-- The branch of a state under a name. -/
def branch? (σ : Store) (h : Handle) (name : String) : Option Branch :=
  (σ.get? h).bind fun state => Table.get? name state.branches

/-- The stage of a state. -/
def stage? (σ : Store) (h : Handle) : Option Stage := (σ.get? h).map State.stage

/-- What a state is apart from its place: its stage and its branches. -/
def body? (σ : Store) (h : Handle) : Option (Stage × Table String Branch) :=
  (σ.get? h).map fun state => (state.stage, state.branches)

/-- All branches were made for the states that keep them. -/
def Owned (σ : Store) : Prop := ∀ h state, σ.get? h = some state → state.OwnedBy h

/-- A store without states has no branches of others. -/
theorem owned_empty : Store.empty.Owned := fun _ state hstate => by cases hstate

/-- A state with the same body is in the same stage. -/
theorem stage?_of_body? (hbody : σ'.body? g = σ.body? h) : σ'.stage? g = σ.stage? h := by
  have hstage : ∀ (τ : Store) h, τ.stage? h = (τ.body? h).map Prod.fst := fun τ h => by
    rw [body?, Option.map_map]
    rfl
  rw [hstage, hstage, hbody]

/-- A state with the same body has the same branches. -/
theorem branch?_of_body? (hbody : σ'.body? g = σ.body? h) (name : String) :
    σ'.branch? g name = σ.branch? h name := by
  have hbranch : ∀ (τ : Store) h, τ.branch? h name =
      (τ.body? h).bind fun body => Table.get? name body.2 := fun τ h => by
    rw [body?, Option.bind_map]
    rfl
  rw [hbranch, hbranch, hbody]

/-- A handle names a state. -/
def Live (σ : Store) (h : Handle) : Prop := ∃ state, σ.get? h = some state

/-- A state has a place. -/
theorem place?_eq_some {place : Place} :
    σ.place? h = some place ↔ ∃ state, σ.get? h = some state ∧ state.place = place :=
  Option.map_eq_some_iff

/-- What has a place is live. -/
theorem live_of_place? {place : Place} (hplace : σ.place? h = some place) : σ.Live h := by
  obtain ⟨state, hstate, -⟩ := place?_eq_some.mp hplace
  exact ⟨state, hstate⟩

/-- What is live has a place. -/
theorem Live.place? (hlive : σ.Live h) : ∃ place, σ.place? h = some place := by
  obtain ⟨state, hstate⟩ := hlive
  exact ⟨state.place, place?_eq_some.mpr ⟨state, hstate, rfl⟩⟩

/-- Live is what has a place. -/
theorem live_iff_place? : σ.Live h ↔ ∃ place, σ.place? h = some place :=
  ⟨Live.place?, fun ⟨_, hplace⟩ => live_of_place? hplace⟩

/-- What is not live has no state. -/
theorem not_live : ¬ σ.Live h ↔ σ.get? h = none := by
  unfold Live
  rw [not_exists, Option.eq_none_iff_forall_ne_some]

/-- A live state is found by whoever expects it. -/
theorem expect_eq_ok {state : State} : σ.expect h = .ok state ↔ σ.get? h = some state := by
  unfold expect
  cases σ.get? h <;> simp

/-- A live state is found by whoever asks for it. -/
theorem live_eq_ok {state : State} : σ.live h = .ok state ↔ σ.get? h = some state := by
  unfold live
  split
  · rename_i found hfound
    rw [hfound, Except.ok.injEq, Option.some.injEq]
  · rename_i hnone
    rw [hnone]
    split <;> simp

/-- A branch is found where the state has one. -/
theorem branch_eq_ok {name : String} {branch : Branch} :
    σ.branch h name = .ok branch ↔ σ.branch? h name = some branch := by
  unfold Store.branch Store.branch?
  cases hlive : σ.live h with
  | error reason =>
    have hnone : σ.get? h = none := by
      cases hget : σ.get? h with
      | none => rfl
      | some state => cases hlive.symm.trans (live_eq_ok.mpr hget)
    simp [hnone]
  | ok state =>
    rw [live_eq_ok.mp hlive]
    cases hbranch : Table.get? name state.branches <;> simp [hbranch]

/-- A branch that is there can be read. -/
theorem toOption_branch (h : Handle) (name : String) :
    (σ.branch h name).toOption = σ.branch? h name := by
  apply Option.ext
  intro branch
  rw [toOption_eq_some, branch_eq_ok]

/-! ## What each step changes -/

@[simp]
theorem get?_announce (event : Event) (h : Handle) : (σ.announce event).get? h = σ.get? h := rfl

@[simp]
theorem stateAt?_announce (event : Event) (place : Place) :
    (σ.announce event).stateAt? place = σ.stateAt? place := rfl

/-- Changing a state changes no other one. -/
theorem get?_modify (h g : Handle) (change : State → State) :
    (σ.modify h change).get? g = if g = h then (σ.get? h).map change else σ.get? g :=
  Arena.get?_modify h g change

@[simp]
theorem stateAt?_modify (h : Handle) (change : State → State) (place : Place) :
    (σ.modify h change).stateAt? place = σ.stateAt? place := rfl

/-- Changing a state into itself changes nothing. -/
theorem modify_id (h : Handle) : σ.modify h id = σ := by
  rw [modify, Arena.modify_id]

/-- A change that leaves states where they stand leaves all places. -/
theorem place?_modify {change : State → State}
    (hplace : ∀ state, (change state).place = state.place) (h g : Handle) :
    (σ.modify h change).place? g = σ.place? g := by
  unfold place?
  rw [get?_modify]
  split
  · rename_i heq
    rw [heq, Option.map_map]
    congr 1
    funext state
    exact hplace state
  · rfl

/-- Changing a state leaves the same states live. -/
theorem live_modify (h g : Handle) (change : State → State) :
    (σ.modify h change).Live g ↔ σ.Live g := by
  unfold Live
  rw [get?_modify]
  split
  · rename_i heq
    rw [heq]
    cases σ.get? h <;> simp
  · rfl

/-- Moving a state to a stage moves no other one. -/
theorem get?_setStage (h g : Handle) (stage : Stage) : (σ.setStage h stage).get? g =
    if g = h then (σ.get? h).map fun state => { state with stage } else σ.get? g :=
  get?_modify h g _

@[simp]
theorem place?_setStage (h g : Handle) (stage : Stage) :
    (σ.setStage h stage).place? g = σ.place? g :=
  place?_modify (fun _ => by rfl) h g

/-- Branches are kept for their owners when a state goes on keeping its own. -/
theorem Owned.modify (hσ : σ.Owned) {change : State → State}
    (hchange : ∀ state, state.OwnedBy h → (change state).OwnedBy h) :
    (σ.modify h change).Owned := by
  intro g state hget
  rw [get?_modify] at hget
  split at hget
  · rename_i hg
    obtain ⟨before, hbefore, rfl⟩ := Option.map_eq_some_iff.mp hget
    rw [hg]
    exact hchange before (hσ h before hbefore)
  · exact hσ g state hget

/-- Moving a state to a stage leaves the same states live. -/
theorem live_setStage {stage : Stage} : (σ.setStage h stage).Live g ↔ σ.Live g :=
  live_modify h g _

/-- Only a live state enters a stage. -/
theorem enter_eq_ok {stage : Stage} :
    σ.enter h stage = .ok σ' ↔ σ.Live h ∧ σ' = σ.setStage h stage := by
  unfold enter Live
  simp only [bind_eq_ok, expect_eq_ok, pure_eq_ok, Except.ok.injEq, exists_and_right]
  exact and_congr_right fun _ => eq_comm

/-- A live state enters every stage. -/
theorem enter_of_live (hlive : σ.Live h) (stage : Stage) :
    σ.enter h stage = .ok (σ.setStage h stage) :=
  enter_eq_ok.mpr ⟨hlive, rfl⟩

/-- Setting a branch of a state changes no other state. -/
theorem get?_setBranch (h g : Handle) (name : String) (branch : Branch) :
    (σ.setBranch h name branch).get? g =
      if g = h then (σ.get? h).map (State.setBranch h name branch) else σ.get? g :=
  get?_modify h g _

/-- A branch that is set is there. -/
theorem branch?_setBranch (hlive : σ.Live h) (name : String) (branch : Branch) :
    (σ.setBranch h name branch).branch? h name = some branch := by
  obtain ⟨state, hstate⟩ := hlive
  rw [branch?, get?_setBranch, if_pos rfl, hstate, Option.map_some, Option.bind_some,
    State.branches_setBranch, Table.get?_set_same]

/-- Setting a branch changes no other state. -/
theorem body?_setBranch (hne : g ≠ h) (name : String) (branch : Branch) :
    (σ.setBranch h name branch).body? g = σ.body? g := by
  rw [body?, get?_setBranch, if_neg hne, body?]

/-- The other branches of the state stay when one is set. -/
theorem branch?_setBranch_of_ne (name : String) (branch : Branch) {other : String}
    (hne : other ≠ name) : (σ.setBranch h name branch).branch? h other = σ.branch? h other := by
  rw [branch?, get?_setBranch, if_pos rfl, Option.bind_map, branch?]
  refine congrArg _ (funext fun state => ?_)
  rw [Function.comp, State.branches_setBranch, Table.get?_set, if_neg hne]

@[simp]
theorem live_setBranch (h g : Handle) (name : String) (branch : Branch) :
    (σ.setBranch h name branch).Live g ↔ σ.Live g := live_modify h g _

@[simp]
theorem place?_setBranch (h g : Handle) (name : String) (branch : Branch) :
    (σ.setBranch h name branch).place? g = σ.place? g :=
  place?_modify (fun _ => by rfl) h g

@[simp]
theorem get?_enroll (place : Place) (h g : Handle) : (σ.enroll place h).get? g = σ.get? g := rfl

/-- A place that is registered leads to its handle, the others where they led. -/
theorem stateAt?_enroll (place other : Place) (h : Handle) :
    (σ.enroll place h).stateAt? other = if other = place then some h else σ.stateAt? other :=
  Table.get?_set place other h σ.register

@[simp]
theorem get?_dismiss (place : Place) (h g : Handle) : (σ.dismiss place h).get? g = σ.get? g := by
  unfold dismiss
  split <;> rfl

/-- A place is taken off the register if it leads to the given handle. -/
theorem stateAt?_dismiss (place other : Place) (h : Handle) :
    (σ.dismiss place h).stateAt? other =
      if other = place ∧ σ.stateAt? place = some h then none else σ.stateAt? other := by
  unfold dismiss
  by_cases hleads : σ.stateAt? place = some h
  · rw [if_pos hleads]
    exact (Table.get?_erase place other σ.register).trans (by simp [hleads]; rfl)
  · rw [if_neg hleads, if_neg fun hboth => hleads hboth.2]

/-- Taking a place off the register changes nothing but the register. -/
theorem dismiss_eq (σ : Store) (place : Place) (h : Handle) :
    ∃ register, σ.dismiss place h = { σ with register } := by
  unfold dismiss
  split
  · exact ⟨_, rfl⟩
  · exact ⟨σ.register, rfl⟩

@[simp]
theorem arena_dismiss (place : Place) (h : Handle) : (σ.dismiss place h).arena = σ.arena := by
  obtain ⟨register, hregister⟩ := dismiss_eq σ place h
  rw [hregister]

/-- A place that is taken off the register leaves no place on it twice. -/
theorem nodup_keys_dismiss {place : Place} (hkeys : (Table.keys σ.register).Nodup) :
    (Table.keys (σ.dismiss place h).register).Nodup := by
  unfold dismiss
  split
  · exact Table.nodup_keys_erase hkeys _
  · exact hkeys

/-! ## New states -/

section Allocate

variable {σ₁ : Store} {c : Handle} {place : Place} (hsound : σ.arena.Sound)
  (hallocate : σ.allocate place = (c, σ₁))

include hallocate

/-- Making a state registers nothing. -/
theorem register_of_allocate : σ₁.register = σ.register := by
  obtain rfl : (σ.allocate place).2 = σ₁ := by rw [hallocate]
  rfl

include hsound

/-- A new state leaves the arena sound. -/
theorem sound_of_allocate : σ₁.arena.Sound := by
  obtain rfl : (σ.allocate place).2 = σ₁ := by rw [hallocate]
  exact hsound.insert _

/-- A new state is another one than all before. -/
theorem get?_of_allocate (g : Handle) :
    σ₁.get? g = if g = c then some ⟨place, .created, []⟩ else σ.get? g := by
  obtain rfl : (σ.allocate place).1 = c := by rw [hallocate]
  obtain rfl : (σ.allocate place).2 = σ₁ := by rw [hallocate]
  exact Arena.get?_insert hsound ⟨place, .created, []⟩ g

/-- The handle of a new state named nothing. -/
theorem get?_handle_of_allocate : σ.get? c = none := by
  obtain rfl : (σ.allocate place).1 = c := by rw [hallocate]
  exact Arena.get?_insert_handle hsound ⟨place, .created, []⟩

/-- What was live is another state than the new one. -/
theorem ne_of_allocate (hlive : σ.Live g) : g ≠ c := by
  rintro rfl
  exact not_live.mpr (get?_handle_of_allocate hsound hallocate) hlive

/-- The new state stands at its place, the others where they stood. -/
theorem place?_of_allocate (g : Handle) :
    σ₁.place? g = if g = c then some place else σ.place? g := by
  rw [place?, get?_of_allocate hsound hallocate]
  split <;> rfl

/-- What stood at a place stays there. -/
theorem place?_mono_of_allocate {other : Place} (hplace : σ.place? g = some other) :
    σ₁.place? g = some other := by
  rw [place?_of_allocate hsound hallocate,
    if_neg (ne_of_allocate hsound hallocate (live_of_place? hplace)), hplace]

/-- A new state leaves the branches of those that were live. -/
theorem branch?_of_allocate (hlive : σ.Live g) (name : String) :
    σ₁.branch? g name = σ.branch? g name := by
  rw [branch?, get?_of_allocate hsound hallocate, if_neg (ne_of_allocate hsound hallocate hlive),
    branch?]

/-- A new state has no branches of others. -/
theorem Owned.of_allocate (hσ : σ.Owned) : σ₁.Owned := by
  intro g state hstate
  rw [get?_of_allocate hsound hallocate] at hstate
  split at hstate
  · cases hstate
    exact nofun
  · exact hσ g state hstate

end Allocate

/-! ## States taken out -/

section Remove

variable {state : State} {arena : Arena State} (hremove : σ.arena.remove h = some (state, arena))

include hremove

/-- A state that is taken out was there. -/
theorem get?_of_remove : σ.get? h = some state := (Arena.remove_eq_some.mp hremove).1

/-- A state that is taken out is gone, and the others are as they were. -/
theorem get?_remove (g : Handle) : (({ σ with arena } : Store).dismiss state.place h).get? g =
    if g = h then none else σ.get? g := by
  rw [get?_dismiss]
  exact Arena.get?_remove hremove g

/-- A state that is taken out has no place, and the others stand where they stood. -/
theorem place?_remove (g : Handle) : (({ σ with arena } : Store).dismiss state.place h).place? g =
    if g = h then none else σ.place? g := by
  rw [place?, get?_remove hremove]
  split <;> rfl

end Remove

/-- A state is removed by taking out what is under it, and then the state itself. -/
theorem destroyWithin_succ_eq_ok {generations : Nat} :
    destroyWithin (generations + 1) h σ = .ok σ' ↔ ∃ state σ₁ last arena,
      σ.get? h = some state ∧
      state.inners.foldlM (fun σ (property, inner) =>
        releaseWith (destroyWithin generations) inner.owner property inner.branch σ)
        (σ.modify h fun state => { state with inners := [] }) = .ok σ₁ ∧
      σ₁.arena.remove h = some (last, arena) ∧
      (({ σ₁ with arena } : Store).dismiss last.place h).announce
        (.stateDestroyed last.place h) = σ' := by
  constructor
  · intro hdestroy
    obtain ⟨state, hexpect, hdestroy⟩ := bind_eq_ok.mp hdestroy
    obtain ⟨σ₁, hrelease, hdestroy⟩ := bind_eq_ok.mp hdestroy
    split at hdestroy
    · cases hdestroy
    · rename_i last arena hremove
      exact ⟨state, σ₁, last, arena, expect_eq_ok.mp hexpect, hrelease, hremove,
        Except.ok.inj hdestroy⟩
  · rintro ⟨state, σ₁, last, arena, hstate, hrelease, hremove, rfl⟩
    rw [destroyWithin, expect_eq_ok.mpr hstate, ok_bind]
    dsimp only
    rw [hrelease, ok_bind, hremove]
    rfl

/-- A state is cleared by taking out what is under it. -/
theorem clear_eq_ok : σ.clear h = .ok σ' ↔ ∃ state, σ.get? h = some state ∧
    state.inners.foldlM (fun current (property, inner) =>
      releaseWith (destroyWithin σ.generations) inner.owner property inner.branch current)
      (σ.modify h fun state => { state with inners := [] }) = .ok σ' := by
  unfold clear
  simp only [bind_eq_ok, expect_eq_ok]

/-! ## The way up -/

/-- The way up from a state ends at the root; the path leads back down. -/
inductive Climbs (σ : Store) : Handle → Path → Prop where
  | root {h : Handle} (place : σ.place? h = some .root) : Climbs σ h []
  | within {h parent : Handle} {name : String} {slot : Slot} {path : Path}
    (place : σ.place? h = some (.within parent name slot)) (up : Climbs σ parent path) :
    Climbs σ h (path ++ [⟨name, slot⟩])

/-- A state is met on the way up from another one, which may be itself. -/
inductive Under (σ : Store) (h : Handle) : Handle → Prop where
  | refl : Under σ h h
  | within {g parent : Handle} {name : String} {slot : Slot}
    (place : σ.place? g = some (.within parent name slot)) (up : Under σ h parent) : Under σ h g

/-- A state from which there is a way up is live. -/
theorem Climbs.live {path : Path} (hclimbs : σ.Climbs h path) : σ.Live h := by
  cases hclimbs with
  | root place => exact live_of_place? place
  | within place up => exact live_of_place? place

/-- There is one way up. -/
theorem Climbs.unique {path path' : Path} (hclimbs : σ.Climbs h path)
    (hclimbs' : σ.Climbs h path') : path = path' := by
  induction hclimbs generalizing path' with
  | root place =>
    cases hclimbs' with
    | root _ => rfl
    | within place' _ =>
      rw [place] at place'
      cases place'
  | within place up ih =>
    cases hclimbs' with
    | root place' =>
      rw [place] at place'
      cases place'
    | within place' up' =>
      rw [place] at place'
      cases place'
      rw [ih up']

/-- A state is above a path exactly when its way up is the beginning of the path. -/
theorem Climbs.prefix_iff {path path' : Path} (hclimbs : σ.Climbs h path) :
    path <+: path' ↔ ∃ g up, g = h ∧ σ.Climbs g up ∧ up <+: path' := by
  constructor
  · exact fun hprefix => ⟨h, path, rfl, hclimbs, hprefix⟩
  · rintro ⟨_, up, rfl, hup, hprefix⟩
    rwa [hup.unique hclimbs] at hprefix

/-- The way up from a state in a slot goes through the state that has the slot. -/
theorem Climbs.parent {path : Path} {parent : Handle} {name : String} {slot : Slot}
    (hclimbs : σ.Climbs h path) (hplace : σ.place? h = some (.within parent name slot)) :
    ∃ up, σ.Climbs parent up ∧ path = up ++ [⟨name, slot⟩] := by
  cases hclimbs with
  | root place =>
    rw [hplace] at place
    cases place
  | within place up =>
    rw [hplace] at place
    cases place
    exact ⟨_, up, rfl⟩

/-- The way up along a path without steps is that of a root. -/
theorem climbs_nil : σ.Climbs h [] ↔ σ.place? h = some .root := by
  constructor
  · intro hclimbs
    generalize hpath : ([] : Path) = path at hclimbs
    cases hclimbs with
    | root place => exact place
    | within => simp at hpath
  · exact .root

/-- The way up along a path with a last step is that of a parent that has the slot. -/
theorem climbs_append_singleton {path : Path} {step : Step} :
    σ.Climbs h (path ++ [step]) ↔
      ∃ parent, σ.place? h = some (.within parent step.property step.slot) ∧
        σ.Climbs parent path := by
  constructor
  · intro hclimbs
    generalize hpath : path ++ [step] = whole at hclimbs
    cases hclimbs with
    | root => simp at hpath
    | within place up =>
      obtain ⟨rfl, rfl⟩ := List.append_singleton_inj.mp hpath
      exact ⟨_, place, up⟩
  · rintro ⟨parent, place, up⟩
    exact .within place up

/-- On the way up from a state all beginnings of its path are met. -/
theorem Climbs.above {path rest : Path} (hclimbs : σ.Climbs g (path ++ rest)) :
    ∃ h, σ.Climbs h path ∧ σ.Under h g := by
  induction rest using List.reverseRecOn generalizing g with
  | nil => exact ⟨g, by rwa [List.append_nil] at hclimbs, .refl⟩
  | append_singleton rest step ih =>
    rw [← List.append_assoc, climbs_append_singleton] at hclimbs
    obtain ⟨parent, hplace, hup⟩ := hclimbs
    obtain ⟨h, hh, hunder⟩ := ih hup
    exact ⟨h, hh, .within hplace hunder⟩

/-- No path to a state is as long as there are states. -/
theorem Climbs.length_lt {path : Path} (hclimbs : σ.Climbs h path) :
    path.length < σ.arena.occupied := by
  -- The states on the way up are different, since their own ways up are of different lengths.
  have hline : ∃ line : List Handle, line.length = path.length + 1 ∧ line.Nodup ∧
      ∀ g ∈ line, ∃ up, σ.Climbs g up ∧ up.length ≤ path.length := by
    induction hclimbs with
    | @root h place =>
      refine ⟨[h], rfl, List.nodup_singleton h, fun g hg => ?_⟩
      rw [List.mem_singleton.mp hg]
      exact ⟨[], .root place, le_rfl⟩
    | @within h _ _ _ path place up ih =>
      obtain ⟨line, hlength, hnodup, hline⟩ := ih
      refine ⟨h :: line, by simp [hlength], List.nodup_cons.mpr ⟨fun hmem => ?_, hnodup⟩, ?_⟩
      · obtain ⟨up', hup', hle⟩ := hline h hmem
        rw [Climbs.unique hup' (.within place up), List.length_append, List.length_singleton] at hle
        omega
      · refine List.forall_mem_cons.mpr ⟨⟨_, .within place up, le_rfl⟩, fun g hg => ?_⟩
        obtain ⟨up', hup', hle⟩ := hline g hg
        refine ⟨up', hup', hle.trans ?_⟩
        rw [List.length_append]
        exact Nat.le_add_right _ _
  obtain ⟨line, hlength, hnodup, hline⟩ := hline
  have hsub : line ⊆ σ.arena.handles := fun g hg => by
    obtain ⟨up, hup, -⟩ := hline g hg
    exact Arena.mem_handles.mpr hup.live
  have hle := (List.subperm_of_subset hnodup hsub).length_le
  rw [Arena.length_handles_eq_occupied] at hle
  omega

/-- The bound on the generations is beyond the number of states. -/
theorem occupied_lt_generations (σ : Store) : σ.arena.occupied < σ.generations :=
  Nat.lt_succ_of_le List.countP_le_length

/-- The way up from a state below another one goes on with the way up from that. -/
theorem Under.climbs (hunder : σ.Under h g) {path : Path} (hclimbs : σ.Climbs g path) :
    ∃ up rest, σ.Climbs h up ∧ path = up ++ rest := by
  induction hunder generalizing path with
  | refl => exact ⟨path, [], hclimbs, (List.append_nil path).symm⟩
  | within place _ ih =>
    obtain ⟨up, hup, rfl⟩ := hclimbs.parent place
    obtain ⟨up', rest, hup', rfl⟩ := ih hup
    exact ⟨up', rest ++ [_], hup', List.append_assoc _ _ _⟩

/-- The way up is the same where the places on it are. -/
theorem Climbs.congr {path : Path} (hclimbs : σ.Climbs h path)
    (hplaces : ∀ g, σ.Under g h → σ'.place? g = σ.place? g) : σ'.Climbs h path := by
  induction hclimbs with
  | root place => exact .root ((hplaces _ .refl).trans place)
  | within place _ ih =>
    exact .within ((hplaces _ .refl).trans place) (ih fun g hg => hplaces g (.within place hg))

/-- The way up is the same where everything stands where it stood. -/
theorem Climbs.mono {path : Path} (hclimbs : σ.Climbs h path)
    (hplaces : ∀ g place, σ.place? g = some place → σ'.place? g = some place) :
    σ'.Climbs h path := by
  induction hclimbs with
  | root place => exact .root (hplaces _ _ place)
  | within place _ ih => exact .within (hplaces _ _ place) ih

/-- What is met on the way up is met where everything stands where it stood. -/
theorem Under.mono (hunder : σ.Under h g)
    (hplaces : ∀ g place, σ.place? g = some place → σ'.place? g = some place) :
    σ'.Under h g := by
  induction hunder with
  | refl => exact .refl
  | within place _ ih => exact .within (hplaces _ _ place) ih

/-- The same ways lead up where all places are the same. -/
theorem climbs_congr {path : Path} (hplaces : ∀ g, σ'.place? g = σ.place? g) :
    σ'.Climbs h path ↔ σ.Climbs h path :=
  ⟨fun hclimbs => hclimbs.congr fun g _ => (hplaces g).symm,
    fun hclimbs => hclimbs.congr fun g _ => hplaces g⟩

/-- The same is below a state where all places are the same. -/
theorem under_congr (hplaces : ∀ g, σ'.place? g = σ.place? g) : σ'.Under h g ↔ σ.Under h g :=
  ⟨fun hunder => hunder.mono fun g _ hplace => (hplaces g).symm.trans hplace,
    fun hunder => hunder.mono fun g _ hplace => (hplaces g).trans hplace⟩

@[simp]
theorem climbs_announce {path : Path} (event : Event) :
    (σ.announce event).Climbs h path ↔ σ.Climbs h path := climbs_congr fun _ => rfl

@[simp]
theorem under_announce (event : Event) : (σ.announce event).Under h g ↔ σ.Under h g :=
  under_congr fun _ => rfl

@[simp]
theorem under_setBranch (o : Handle) (name : String) (branch : Branch) :
    (σ.setBranch o name branch).Under h g ↔ σ.Under h g :=
  under_congr fun g => place?_setBranch o g name branch

/-- What is below a state below another one is below that. -/
theorem Under.trans {f : Handle} (hunder : σ.Under f h) (hunder' : σ.Under h g) :
    σ.Under f g := by
  induction hunder' with
  | refl => exact hunder
  | within place _ ih => exact .within place ih

/-- Of two states above a third one, one is above the other. -/
theorem Under.linear {f : Handle} (hunder : σ.Under f g) (hunder' : σ.Under h g) :
    σ.Under f h ∨ σ.Under h f := by
  induction hunder with
  | refl => exact .inr hunder'
  | within place up ih =>
    cases hunder' with
    | refl => exact .inl (.within place up)
    | within place' up' =>
      rw [place] at place'
      cases place'
      exact ih up'

/-- What is below a state is the state itself or below one of its children. -/
theorem Under.eq_or_child (hunder : σ.Under h g) : g = h ∨ ∃ child name slot,
    σ.place? child = some (.within h name slot) ∧ σ.Under child g := by
  induction hunder with
  | refl => exact .inl rfl
  | @within g parent name slot place _ ih =>
    rcases ih with rfl | ⟨child, name', slot', hchild, hbelow⟩
    · exact .inr ⟨g, name, slot, place, .refl⟩
    · exact .inr ⟨child, name', slot', hchild, .within place hbelow⟩

/-- Below a state that nothing stands in is only the state itself. -/
theorem Under.eq_of_leaf (hunder : σ.Under h g)
    (hleaf : ∀ child name slot, σ.place? child ≠ some (.within h name slot)) : g = h :=
  hunder.eq_or_child.resolve_right fun ⟨child, name, slot, hchild, _⟩ =>
    hleaf child name slot hchild

/-- No state is below its own child. -/
theorem not_under_parent {parent : Handle} {name : String} {slot : Slot} {path : Path}
    (hclimbs : σ.Climbs h path) (hplace : σ.place? h = some (.within parent name slot)) :
    ¬ σ.Under h parent := by
  intro hunder
  obtain ⟨up, hup, rfl⟩ := hclimbs.parent hplace
  obtain ⟨up', rest, hup', heq⟩ := hunder.climbs hup
  have hlength := congrArg List.length (hup'.unique (.within hplace hup))
  rw [heq] at hlength
  simp at hlength

/-- A state below one in a slot that stands in a slot of the same state is that one. -/
theorem eq_of_under {f parent : Handle} {name name' : String} {slot slot' : Slot} {path : Path}
    (hclimbs : σ.Climbs f path) (hf : σ.place? f = some (.within parent name slot))
    (hg : σ.place? g = some (.within parent name' slot')) (hunder : σ.Under f g) : g = f := by
  cases hunder with
  | refl => rfl
  | within place up =>
    rw [hg] at place
    cases place
    exact absurd up (not_under_parent hclimbs hf)

/-- Nothing is below two children of a state. -/
theorem eq_of_under_both {f f' parent : Handle} {name name' : String} {slot slot' : Slot}
    {path path' : Path} (hf : σ.place? f = some (.within parent name slot))
    (hclimbs : σ.Climbs f path) (hf' : σ.place? f' = some (.within parent name' slot'))
    (hclimbs' : σ.Climbs f' path') (hunder : σ.Under f g) (hunder' : σ.Under f' g) : f = f' := by
  rcases hunder.linear hunder' with hbelow | hbelow
  · exact (eq_of_under hclimbs hf hf' hbelow).symm
  · exact eq_of_under hclimbs' hf' hf hbelow

end Store

end TreeEditor
