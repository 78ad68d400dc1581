import TreeEditor.Proofs.RemovalEvents
import TreeEditor.Proofs.EditEvents

/-!
# What the steps of an edit announce

Between the conditions of an edit and its own announcement the states are grown, shifted and
removed. Growing announces nothing but that states and blocks come to be (`Grammar.births_growth`),
shifting announces nothing, and removing announces the states that go and the blocks that they had
(`Store.spares_destroy`). In the journal all of that only comes after what was there before
(`Store.Adds`).

What removing leaves alone is said with a set of states that has all children of its members
(`Store.Removable`): a removal that starts in the set stays in it, and the branches that it comes
upon are the ones that were there at first (`Store.Spares`). So nothing need be known of how the
states stand.
-/

namespace TreeEditor

/-- An event tells how a state or a block came to be, or how a state went away. -/
def Event.OfLife (event : Event) : Prop := event.kind.isLifecycle = true

namespace Store

variable {σ σ₁ σ' : Store} {h o c : Handle} {name : String} {p q : Event → Prop}

/-! ## Additions to the journal -/

/-- Only events of some kind have been announced. -/
def Adds (p : Event → Prop) (σ σ' : Store) : Prop :=
  ∃ events, σ'.journal.toList = σ.journal.toList ++ events ∧ ∀ event ∈ events, p event

/-- Nothing need be announced. -/
theorem Adds.of_eq (hjournal : σ'.journal = σ.journal) : σ.Adds p σ' :=
  ⟨[], by rw [hjournal, List.append_nil], nofun⟩

/-- What is announced in two steps is announced. -/
theorem Adds.trans (h : σ.Adds p σ₁) (h' : σ₁.Adds p σ') : σ.Adds p σ' := by
  obtain ⟨events, hjournal, hevents⟩ := h
  obtain ⟨events', hjournal', hevents'⟩ := h'
  refine ⟨events ++ events', by rw [hjournal', hjournal, List.append_assoc], fun event hevent => ?_⟩
  exact (List.mem_append.mp hevent).elim (hevents event) (hevents' event)

/-- A further event is announced. -/
theorem Adds.announce (h : σ.Adds p σ') {event : Event} (hevent : p event) :
    σ.Adds p (σ'.announce event) :=
  h.trans ⟨[event], by simp [Store.announce], fun _ hmem => List.mem_singleton.mp hmem ▸ hevent⟩

/-- Events of one kind may be of a wider one. -/
theorem Adds.mono (h : σ.Adds p σ') (hpq : ∀ event, p event → q event) : σ.Adds q σ' := by
  obtain ⟨events, hjournal, hevents⟩ := h
  exact ⟨events, hjournal, fun event hevent => hpq event (hevents event hevent)⟩

/-- A step that needs no event announces none. -/
theorem Silent.adds (h : σ.Silent σ') : σ.Adds p σ' :=
  ⟨[], h.accounts.journal, nofun⟩

end Store

/-! ## Growing -/

/-- Growing announces only that states and blocks come to be. -/
def Growth.Births (grow : Growth) : Prop :=
  ∀ σ o σ', grow o σ = .ok σ' → σ.Adds Event.OfLife σ'

namespace Store

variable {σ σ' : Store} {h o : Handle} {name : String}

/-- A state is announced, and everything that is grown inside it. -/
theorem adds_settle {place : Place} {growth : Option Growth}
    (hgrowth : ∀ grow ∈ growth, Growth.Births grow)
    (hsettle : σ.settle place h growth = .ok σ') : σ.Adds Event.OfLife σ' := by
  obtain ⟨τ, hfill, hlast⟩ := bind_eq_ok.mp hsettle
  cases hlast
  have hbegun : σ.Adds Event.OfLife (σ.announce (.stateCreated place h)) :=
    .announce (.of_eq rfl) rfl
  refine (hbegun.trans ?_).announce rfl
  cases growth with
  | none =>
    obtain ⟨-, rfl⟩ := enter_eq_ok.mp hfill
    exact .of_eq rfl
  | some grow =>
    obtain ⟨τ', hgrow, hready⟩ := bind_eq_ok.mp hfill
    obtain ⟨-, rfl⟩ := enter_eq_ok.mp hready
    exact (hgrowth grow rfl _ h τ' hgrow).trans (.of_eq rfl)

/-- A state that is created is announced. -/
theorem adds_create {place : Place} {growth : Option Growth}
    (hgrowth : ∀ grow ∈ growth, Growth.Births grow)
    (hcreate : σ.create place growth = .ok (h, σ')) : σ.Adds Event.OfLife σ' := by
  obtain ⟨τ, hsettle, hlast⟩ := bind_eq_ok.mp hcreate
  cases hlast
  have hmade : σ.Adds Event.OfLife ((σ.allocate place).2.enroll place (σ.allocate place).1) :=
    .of_eq rfl
  exact hmade.trans (adds_settle hgrowth hsettle)

/-- States that are created one after the other are announced. -/
theorem adds_createAll {entries : List (Place × Growth)}
    (hgrowth : ∀ entry ∈ entries, Growth.Births entry.2) {handles : List Handle}
    (hcreate : σ.createAll entries = .ok (handles, σ')) : σ.Adds Event.OfLife σ' := by
  induction entries generalizing σ handles with
  | nil =>
    cases hcreate
    exact .of_eq rfl
  | cons entry rest ih =>
    obtain ⟨⟨first, σ₁⟩, hfirst, hcreate⟩ := bind_eq_ok.mp hcreate
    obtain ⟨⟨others, σ₂⟩, hrest, hlast⟩ := bind_eq_ok.mp hcreate
    cases hlast
    have hone : ∀ grow ∈ some entry.2, Growth.Births grow := fun grow hgrow => by
      cases hgrow
      exact hgrowth entry List.mem_cons_self
    exact (adds_create hone hfirst).trans
      (ih (fun other hother => hgrowth other (List.mem_cons_of_mem _ hother)) hrest)

/-- Blocks that are created are announced, each with its members. -/
theorem adds_createBlocks {blocks : List (Block (Node × Growth) (Node × Growth))}
    (hgrowth : ∀ block ∈ blocks, ∀ entry ∈ block.members, Growth.Births entry.2) {position : Nat}
    {states : List (Block Node Handle)}
    (hcreate : σ.createBlocks o name position blocks = .ok (states, σ')) :
    σ.Adds Event.OfLife σ' := by
  induction blocks generalizing σ position states with
  | nil =>
    cases hcreate
    exact .of_eq rfl
  | cons block rest ih =>
    obtain ⟨⟨members, σ₁⟩, hmembers, hcreate⟩ := bind_eq_ok.mp hcreate
    obtain ⟨⟨others, σ₂⟩, hrest, hlast⟩ := bind_eq_ok.mp hcreate
    cases hlast
    have hblock : σ.Adds Event.OfLife (σ.announce (.blockCreated ⟨o, name⟩ position)) :=
      .announce (.of_eq rfl) rfl
    have hmade := adds_createAll (fun entry hentry => by
      obtain ⟨member, hmember, rfl⟩ := List.mem_map.mp hentry
      exact hgrowth block List.mem_cons_self member.1 (List.fst_mem_of_mem_zipIdx hmember)) hmembers
    exact (hblock.trans hmade).trans
      (ih (fun other hother => hgrowth other (List.mem_cons_of_mem _ hother)) hrest)

/-- What is grown for a property is announced. -/
theorem adds_growBranch {property : Property (Node × Growth)}
    (hgrowth : ∀ entry ∈ property.nodes, Growth.Births entry.2)
    (hgrow : σ.growBranch o name property = .ok σ') : σ.Adds Event.OfLife σ' := by
  cases property with
  | value leaf =>
    cases hgrow
    exact .of_eq rfl
  | child entry =>
    obtain ⟨⟨c, τ⟩, hcreate, hlast⟩ := bind_eq_ok.mp hgrow
    cases hlast
    refine (adds_create (fun grow hg => ?_) hcreate).trans (.of_eq rfl)
    cases hg
    exact hgrowth entry (List.mem_singleton_self entry)
  | optional assigned item =>
    obtain ⟨⟨c, τ⟩, hcreate, hlast⟩ := bind_eq_ok.mp hgrow
    cases hlast
    refine (adds_create (fun grow hg => ?_) hcreate).trans (.of_eq rfl)
    -- Nothing is grown for an item that the document only retains.
    cases assigned with
    | false => cases hg
    | true =>
      obtain ⟨entry, rfl, rfl⟩ := Option.map_eq_some_iff.mp hg
      exact hgrowth entry (List.mem_singleton_self entry)
  | list entries =>
    obtain ⟨⟨handles, τ⟩, hcreate, hlast⟩ := bind_eq_ok.mp hgrow
    cases hlast
    refine (adds_createAll (fun entry hentry => ?_) hcreate).trans (.of_eq rfl)
    obtain ⟨member, hmember, rfl⟩ := List.mem_map.mp hentry
    exact hgrowth member.1 (List.fst_mem_of_mem_zipIdx hmember)
  | blockList blocks =>
    obtain ⟨⟨states, τ⟩, hcreate, hlast⟩ := bind_eq_ok.mp hgrow
    cases hlast
    have hlist : σ.Adds Event.OfLife (σ.announce (.blockListCreated ⟨o, name⟩)) :=
      .announce (.of_eq rfl) rfl
    refine (hlist.trans (adds_createBlocks (fun block hblock entry hentry => ?_) hcreate)).trans
      (.of_eq rfl)
    exact hgrowth entry (List.mem_flatMap.mpr
      ⟨block, hblock, List.mem_cons_of_mem _ (List.mem_cons_of_mem _ hentry)⟩)

end Store

/-- Growing the states for a node announces only that states and blocks come to be. -/
theorem Grammar.births_growth {grammar : Grammar} {node : Node} (hnode : node.WellFormed) :
    Growth.Births (grammar.growth node) := by
  -- By induction on the node: the branches are grown for its children.
  induction node using Node.induct with
  | step node ih =>
    intro σ o σ' hgrow
    obtain ⟨found, hfound⟩ := exists_branches_of_growth hgrow
    rw [growth_eq hfound] at hgrow
    have hchildren : ∀ entry ∈ found, ∀ child ∈ entry.2.nodes,
        Growth.Births (grammar.growth child) := fun entry hentry child hchild => by
      have hproperty := (mem_browse hnode.keys hfound).mp hentry
      exact ih _ (Table.mem_of_get? hproperty.1) child hchild (hnode.property hproperty.1 hchild)
    -- Then by induction on the children that were found, after whatever was grown before.
    clear hfound ih
    induction found generalizing σ with
    | nil =>
      cases hgrow
      exact .of_eq rfl
    | cons entry rest ih =>
      obtain ⟨σ₁, hfirst, hrest⟩ := bind_eq_ok.mp hgrow
      refine (Store.adds_growBranch (fun pair hpair => ?_) hfirst).trans
        (ih σ₁ hrest fun other hother => hchildren other (List.mem_cons_of_mem _ hother))
      rw [Property.nodes_map] at hpair
      obtain ⟨child, hchild, rfl⟩ := List.mem_map.mp hpair
      exact hchildren entry List.mem_cons_self child hchild

/-! ## Removing -/

namespace Store

variable {σ σ₁ σ' : Store} {h : Handle} {name : String} {S : Set Handle} {p : Event → Prop}
  {remove : Handle → Store → Except Failure Store}

/-- The states of a set can be removed: the children of its members are members, and events of some
kind tell of all that goes away with them. -/
structure Removable (p : Event → Prop) (σ : Store) (S : Set Handle) : Prop where
  owned : ∀ g ∈ S, ∀ state, σ.get? g = some state → state.OwnedBy g
  children : ∀ g ∈ S, ∀ state, σ.get? g = some state → ∀ entry ∈ state.branches,
    ∀ child ∈ entry.2.children, child ∈ S
  destroyed : ∀ place g, p (.stateDestroyed place g)
  block : ∀ g ∈ S, ∀ state, σ.get? g = some state → ∀ entry ∈ state.branches,
    ∀ blocks, entry.2 = .blockList blocks → ∀ block < blocks.length,
      p (.blockDestroyed ⟨g, entry.1⟩ block)

/-- States can still be removed when some have given up their branches. -/
theorem Removable.shrink (h : Removable p σ S) (hshrinks : ∀ g ∈ S, ∀ state',
    σ'.get? g = some state' → ∃ state, σ.get? g = some state ∧
      (state'.inners = [] ∨ state'.inners = state.inners)) : Removable p σ' S := by
  refine ⟨fun g hg state' hstate' entry hentry => ?_, fun g hg state' hstate' entry hentry => ?_,
    h.destroyed, fun g hg state' hstate' entry hentry => ?_⟩
  all_goals obtain ⟨state, hstate, hnone | hsame⟩ := hshrinks g hg state' hstate'
  · rw [hnone] at hentry
    cases hentry
  · exact h.owned g hg state hstate entry (hsame ▸ hentry)
  · rw [State.branches, hnone] at hentry
    cases hentry
  · rw [State.branches, hsame] at hentry
    exact h.children g hg state hstate entry hentry
  · rw [State.branches, hnone] at hentry
    cases hentry
  · rw [State.branches, hsame] at hentry
    exact h.block g hg state hstate entry hentry

/-- States can be removed where they have the branches that they had. -/
theorem Removable.congr (h : Removable p σ S) (hinners : ∀ g ∈ S,
    (σ'.get? g).map State.inners = (σ.get? g).map State.inners) : Removable p σ' S := by
  refine h.shrink fun g hg state' hstate' => ?_
  have heq := hinners g hg
  rw [hstate', Option.map_some] at heq
  obtain ⟨state, hstate, hsame⟩ := Option.map_eq_some_iff.mp heq.symm
  exact ⟨state, hstate, .inr hsame.symm⟩

/-- States can be removed after the branch of another one was set. -/
theorem Removable.setBranch (h : Removable p σ S) {o : Handle} (ho : o ∉ S) (name : String)
    (branch : Branch) : Removable p (σ.setBranch o name branch) S :=
  h.congr fun g hg => by
    rw [get?_setBranch, if_neg]
    rintro rfl
    exact ho hg

/-- Nothing has changed but states of a set, of which some went away and others gave up their
branches, and only events of some kind were announced. -/
structure Spares (S : Set Handle) (p : Event → Prop) (σ σ' : Store) : Prop where
  kept : ∀ g, g ∉ S → σ'.get? g = σ.get? g
  shrinks : σ.Shrinks σ'
  generations : σ'.arena.generations = σ.arena.generations
  adds : σ.Adds p σ'

namespace Spares

/-- Nothing need go away. -/
theorem refl (S : Set Handle) (p : Event → Prop) (σ : Store) : Spares S p σ σ :=
  ⟨fun _ _ => rfl, .refl σ, rfl, .of_eq rfl⟩

/-- What is spared in two steps is spared. -/
theorem trans (hspares : Spares S p σ σ₁) (hspares' : Spares S p σ₁ σ') : Spares S p σ σ' where
  kept := fun g hg => (hspares'.kept g hg).trans (hspares.kept g hg)
  shrinks := hspares.shrinks.trans hspares'.shrinks
  generations := hspares'.generations.trans hspares.generations
  adds := hspares.adds.trans hspares'.adds

/-- A further event is announced. -/
theorem announce (hspares : Spares S p σ σ') {event : Event} (hevent : p event) :
    Spares S p σ (σ'.announce event) :=
  ⟨hspares.kept, hspares.shrinks, hspares.generations, hspares.adds.announce hevent⟩

/-- The states that are left can be removed. -/
theorem removable (hspares : Spares S p σ σ') (hremovable : Removable p σ S) :
    Removable p σ' S :=
  hremovable.shrink fun g _ => hspares.shrinks g

/-- A state of the set gives up its branches. -/
theorem giveUp (hh : h ∈ S) :
    Spares S p σ (σ.modify h fun state => { state with inners := [] }) where
  kept := fun g hg => by
    rw [get?_modify]
    exact if_neg (by rintro rfl; exact hg hh)
  shrinks := fun g state' hstate' => by
    rw [get?_modify] at hstate'
    split at hstate'
    · obtain ⟨state, hstate, rfl⟩ := Option.map_eq_some_iff.mp hstate'
      rename_i heq
      exact ⟨state, heq ▸ hstate, .inl rfl⟩
    · exact ⟨state', hstate', .inr rfl⟩
  generations := Arena.generations_modify h _
  adds := .of_eq rfl

/-- A state of the set goes away and is announced. -/
theorem take (hh : h ∈ S) {state : State} {arena : Arena State}
    (hremove : σ.arena.remove h = some (state, arena))
    (hstate : ∀ place g, p (.stateDestroyed place g)) :
    Spares S p σ ((({ σ with arena } : Store).dismiss state.place h).announce
      (.stateDestroyed state.place h)) := by
  -- Dismissing a state changes the register at most, and no state is read from that.
  obtain ⟨register, hregister⟩ := dismiss_eq ({ σ with arena } : Store) state.place h
  rw [hregister]
  have hget : ∀ g, ({ σ with arena, register } : Store).get? g = if g = h then none else σ.get? g :=
    Arena.get?_remove hremove
  have hgenerations : arena.generations = σ.arena.generations := Arena.generations_remove hremove
  have hgone : Spares S p σ ({ σ with arena, register } : Store) := by
    refine ⟨fun g hg => ?_, fun g state' hstate' => ?_, hgenerations, .of_eq rfl⟩
    · rw [hget]
      exact if_neg (by rintro rfl; exact hg hh)
    · rw [hget] at hstate'
      split at hstate'
      · cases hstate'
      · exact ⟨state', hstate', .inr rfl⟩
  exact hgone.announce (hstate _ _)

end Spares

/-- A removal that starts in a set of states stays in it. -/
def Sparing (S : Set Handle) (p : Event → Prop) (remove : Handle → Store → Except Failure Store) :
    Prop :=
  ∀ σ h σ', Removable p σ S → h ∈ S → remove h σ = .ok σ' → Spares S p σ σ'

/-- States that are removed one after the other. -/
theorem spares_foldlM (hremove : Sparing S p remove) {children : List Handle}
    (hremovable : Removable p σ S) (hchildren : ∀ child ∈ children, child ∈ S)
    (hfold : children.foldlM (fun σ child => remove child σ) σ = .ok σ') : Spares S p σ σ' := by
  induction children generalizing σ with
  | nil =>
    cases hfold
    exact .refl S p _
  | cons child rest ih =>
    obtain ⟨σ₁, hfirst, hrest⟩ := bind_eq_ok.mp hfold
    have hspares := hremove σ child σ₁ hremovable (hchildren child List.mem_cons_self) hfirst
    exact hspares.trans (ih (hspares.removable hremovable)
      (fun other hother => hchildren other (List.mem_cons_of_mem _ hother)) hrest)

/-- The members of blocks are removed, and the blocks are announced. -/
theorem spares_releaseBlocks (hremove : Sparing S p remove) (site : BranchRef) {position : Nat}
    {blocks : List (Block Node Handle)} (hremovable : Removable p σ S)
    (hmembers : ∀ content ∈ blocks, ∀ member ∈ content.members, member ∈ S)
    (hblocks : ∀ block < position + blocks.length, p (.blockDestroyed site block))
    (hrelease : releaseBlocks remove site position blocks σ = .ok σ') : Spares S p σ σ' := by
  induction blocks generalizing σ position with
  | nil =>
    cases hrelease
    exact .refl S p _
  | cons content rest ih =>
    obtain ⟨σ₁, hfirst, hrest⟩ := bind_eq_ok.mp hrelease
    rw [List.length_cons] at hblocks
    have hspares := (spares_foldlM hremove hremovable (hmembers content List.mem_cons_self)
      hfirst).announce (hblocks position (by omega))
    exact hspares.trans (ih (hspares.removable hremovable)
      (fun other hother => hmembers other (List.mem_cons_of_mem _ hother))
      (fun block hblock => hblocks block (by omega)) hrest)

/-- The states of the branches of a state are removed. -/
theorem spares_branches (hremove : Sparing S p remove) {branches : List (String × Branch)}
    (hremovable : Removable p σ S)
    (hchildren : ∀ entry ∈ branches, ∀ child ∈ entry.2.children, child ∈ S)
    (hblocks : ∀ entry ∈ branches, ∀ blocks, entry.2 = .blockList blocks →
      ∀ block < blocks.length, p (.blockDestroyed ⟨h, entry.1⟩ block))
    (hrelease : branches.foldlM (fun σ (property, branch) =>
      releaseWith remove h property branch σ) σ = .ok σ') : Spares S p σ σ' := by
  induction branches generalizing σ with
  | nil =>
    cases hrelease
    exact .refl S p _
  | cons entry rest ih =>
    obtain ⟨σ₁, hfirst, hrest⟩ := bind_eq_ok.mp hrelease
    obtain ⟨name, branch⟩ := entry
    have hinside := hchildren (name, branch) List.mem_cons_self
    -- Only a list of blocks announces more than the removal of states.
    have hspares : Spares S p σ σ₁ := by
      cases branch with
      | blockList blocks =>
        refine spares_releaseBlocks hremove _ hremovable (fun content hcontent member hmember =>
          hinside member ?_) (fun block hblock => ?_) hfirst
        · change member ∈ (blockSlots blocks).map Prod.snd
          rw [map_snd_blockSlots]
          exact List.mem_flatMap.mpr ⟨content, hcontent, hmember⟩
        · exact hblocks _ List.mem_cons_self blocks rfl block (by omega)
      | placeholder child | optional child | list children =>
        exact spares_foldlM hremove hremovable hinside hfirst
    exact hspares.trans (ih (hspares.removable hremovable)
      (fun other hother => hchildren other (List.mem_cons_of_mem _ hother))
      (fun other hother => hblocks other (List.mem_cons_of_mem _ hother)) hrest)

/-- Everything under a state is removed. -/
theorem spares_inside (hremove : Sparing S p remove) (hremovable : Removable p σ S)
    (hh : h ∈ S) {state : State} (hstate : σ.get? h = some state)
    (hrelease : state.inners.foldlM (fun σ (property, inner) =>
      releaseWith remove inner.owner property inner.branch σ)
      (σ.modify h fun state => { state with inners := [] }) = .ok σ') : Spares S p σ σ' := by
  rw [(hremovable.owned h hh state hstate).foldlM_releaseWith] at hrelease
  -- The branches are given up first; what is removed is read off the state as it was.
  have hgiven : Spares S p σ _ := .giveUp hh
  exact hgiven.trans (spares_branches hremove (hgiven.removable hremovable)
    (hremovable.children h hh state hstate) (hremovable.block h hh state hstate) hrelease)

/-- Removing a state with everything under it stays inside a set that encloses the state. -/
theorem sparing_destroyWithin (S : Set Handle) (p : Event → Prop) (generations : Nat) :
    Sparing S p (destroyWithin generations) := by
  -- By induction on the bound: what is under the state goes with one generation less.
  induction generations with
  | zero => exact fun σ h σ' _ _ hdestroy => nomatch hdestroy
  | succ generations ih =>
    intro σ h σ' hremovable hh hdestroy
    obtain ⟨state, σ₁, last, arena, hstate, hrelease, hremove, rfl⟩ :=
      destroyWithin_succ_eq_ok.mp hdestroy
    have hspares := spares_inside ih hremovable hh hstate hrelease
    exact hspares.trans (.take hh hremove hremovable.destroyed)

/-- Removing a state spares all states outside of a set that encloses it. -/
theorem spares_destroy (hremovable : Removable p σ S) (hh : h ∈ S)
    (hdestroy : σ.destroy h = .ok σ') : Spares S p σ σ' :=
  sparing_destroyWithin S p _ σ h σ' hremovable hh hdestroy

/-- Removing everything under a state spares all states outside of a set that encloses it. -/
theorem spares_clear (hremovable : Removable p σ S) (hh : h ∈ S)
    (hclear : σ.clear h = .ok σ') : Spares S p σ σ' := by
  obtain ⟨state, hstate, hrelease⟩ := clear_eq_ok.mp hclear
  exact spares_inside (sparing_destroyWithin S p _) hremovable hh hstate hrelease

/-- Removing the members of a block spares all states outside of a set that encloses them. -/
theorem spares_destroyMembers {block : Nat} {members : List (Handle × Nat)}
    (hremovable : Removable p σ S)
    (hmembers : ∀ member ∈ members, member.1 ∈ S)
    (hremoved : ∀ member ∈ members, p (.removed (.within o name (.member block member.2)) member.1))
    (hdestroy : Editor.destroyMembers o name block members σ = .ok σ') : Spares S p σ σ' := by
  induction members generalizing σ with
  | nil =>
    cases hdestroy
    exact .refl S p _
  | cons member rest ih =>
    obtain ⟨σ₁, hfirst, hrest⟩ := bind_eq_ok.mp hdestroy
    have hspares := (spares_destroy hremovable (hmembers member List.mem_cons_self)
      hfirst).announce (hremoved member List.mem_cons_self)
    exact hspares.trans (ih (hspares.removable hremovable)
      (fun other hother => hmembers other (List.mem_cons_of_mem _ hother))
      (fun other hother => hremoved other (List.mem_cons_of_mem _ hother)) hrest)

/-! ## Shifted siblings -/

/-- The same states are live after a silent step. -/
theorem Silent.live (h : σ.Silent σ') (g : Handle) : σ'.Live g ↔ σ.Live g := by
  have hsome : ∀ τ : Store, τ.Live g ↔ ((τ.get? g).map State.branches).isSome :=
    fun τ => by rw [Option.isSome_map]; exact Option.isSome_iff_exists.symm
  rw [hsome, hsome, h.branches]

/-- A state has the same branches after a silent step. -/
theorem Silent.branch? (h : σ.Silent σ') (g : Handle) (name : String) :
    σ'.branch? g name = σ.branch? g name := by
  have hbranches : ∀ τ : Store, τ.branch? g name =
      ((τ.get? g).map State.branches).bind (Table.get? name) :=
    fun τ => by rw [Store.branch?, Option.bind_map]; rfl
  rw [hbranches, hbranches, h.branches]

/-- Moving a state leaves the cells their generations. -/
theorem generations_relocate {place : Place} (hmoved : σ.relocate place h = .ok σ') :
    σ'.arena.generations = σ.arena.generations := by
  obtain ⟨state, -, hmoved⟩ := bind_eq_ok.mp hmoved
  split at hmoved
  · cases hmoved
    rfl
  · cases hmoved
    obtain ⟨register, heq⟩ :=
      dismiss_eq (σ.modify h fun state => { state with place }) state.place h
    rw [heq]
    exact Arena.generations_modify h _

/-- Giving the children of a branch their places leaves the cells their generations. -/
theorem generations_reindex (hreindex : σ.reindex o name = .ok σ') :
    σ'.arena.generations = σ.arena.generations :=
  reindex_keeps (R := fun σ σ' => σ'.arena.generations = σ.arena.generations) (fun _ => rfl)
    (fun _ _ _ h h' => h'.trans h) (fun _ _ _ _ => generations_relocate) (fun _ _ _ => rfl)
    hreindex

/-! ## New children -/

/-- A branch has gained a child: the child is new, the branch has become another one, all other
states are still there, and only events of some kind were announced. -/
structure Gains (p : Event → Prop) (o : Handle) (name : String) (old new : Branch) (c : Handle)
    (σ σ' : Store) : Prop where
  held : σ.branch? o name = some old
  left : σ'.branch? o name = some new
  adds : σ.Adds p σ'
  fresh : ¬ σ.Live c
  live : ∀ g, σ.Live g → σ'.Live g
  tidy : σ'.Tidy

/-- A branch gains a child that is made, put into the branch and settled. -/
theorem gains_settle {place place' : Place} {c : Handle} {σ₂ : Store} {old new : Branch}
    {grow : Growth} (htold : Told grow) (hbirths : grow.Births) (htidy : σ.Tidy)
    (hallocate : σ.allocate place = (c, σ₁)) (hbranch : σ₁.branch? o name = some old)
    (hcount : new.blockCount = old.blockCount)
    (hsilent : (σ₁.setBranch o name new).Silent σ₂)
    (hsettle : σ₂.settle place' c (some grow) = .ok σ') :
    Gains Event.OfLife o name old new c σ σ' := by
  have hnew : σ₁.get? c = some ⟨place, .created, []⟩ :=
    (get?_of_allocate htidy.arena hallocate c).trans (if_pos rfl)
  have hne : o ≠ c := by
    rintro rfl
    rw [branch?, hnew] at hbranch
    cases hbranch
  have hlive₁ := live_of_branch? hbranch
  have hset : σ₁.Accounts (σ₁.setBranch o name new) [] _ := accounts_setBranch hlive₁ new
  have htidy₂ : σ₂.Tidy := hsilent.accounts.tidy (hset.tidy (tidy_allocate htidy hallocate))
  have hbare : (σ₂.get? c).map State.branches = some [] := by
    rw [hsilent.branches, get?_setBranch, if_neg hne.symm, hnew]
    rfl
  obtain ⟨state, hstate, hnone⟩ := Option.map_eq_some_iff.mp hbare
  have hlive₂ : ∀ g, σ₂.Live g ↔ σ₁.Live g := fun g =>
    (hsilent.live g).trans (live_modify o g _)
  obtain ⟨τ, hfill, hlast⟩ := bind_eq_ok.mp hsettle
  cases hlast
  -- Growing touches only the new state, so the branch stays as it was set.
  obtain ⟨-, hgrown⟩ := tells_fill (σ := σ₂.announce (.stateCreated place' c))
    (fun grow' hgrow => by cases hgrow; exact htold) (htidy₂.announce _) hstate hnone hfill
  refine ⟨?_, ?_, ?_, not_live.mpr (get?_handle_of_allocate htidy.arena hallocate), ?_, ?_⟩
  · rw [← hbranch, branch?, branch?, get?_of_allocate htidy.arena hallocate, if_neg hne]
  · refine (hgrown.branch? ((hlive₂ o).mpr hlive₁) hne name).trans ?_
    exact (hsilent.branch? o name).trans (branch?_setBranch hlive₁ name new)
  · obtain rfl : (σ.allocate place).2 = σ₁ := by rw [hallocate]
    exact (Adds.trans (.of_eq rfl) hsilent.adds).trans
      (adds_settle (fun grow' hgrow => by cases hgrow; exact hbirths) hsettle)
  · intro g hlive
    exact hgrown.live g ((hlive₂ g).mpr ((Keeps.allocate htidy hallocate).live g hlive))
  · exact (recounted_make htold htidy hallocate hbranch hcount hsilent hsettle).tidy htidy

end Store

end TreeEditor
