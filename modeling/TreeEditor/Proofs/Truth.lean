import TreeEditor.Proofs.Addresses
import TreeEditor.Proofs.Atomicity
import TreeEditor.Proofs.Broadcast
import TreeEditor.Proofs.Handles
import TreeEditor.Proofs.Journal

/-!
# Events tell the truth

An event of an edit names places, states and blocks. It is true when they are what it says in the
editor before the edit and in the editor after it (`Event.Truthful`): a state that was inserted is
new and stands at its place afterwards, one that was removed or replaced stood there before and its
handle is stale, the parts of a block that was split have the members that the event tells. The
places are those of the one editor or the other, whatever was shifted in between; the members of a
block that is removed are announced at the places that they had, when later blocks have moved there
already.

Each edit is taken by its steps (`Editor.Enacts`). The branch of the owner is followed through them
(`Store.Gains`, `Store.Spares`), and the register follows from the branch before and after
(`Editor.stateAt?_within`). The events of the steps are the lives of states and the blocks that go
away with them; the event of the edit itself comes last. This module has the edits of one child.
-/

namespace TreeEditor

namespace Store

variable {σ σ' : Store} {h o : Handle} {name : String} {site : BranchRef} {block : Nat}

/-- The block of states at a position of a branch. -/
def block? (σ : Store) (site : BranchRef) (block : Nat) : Option (Block Node Handle) :=
  match σ.branch? site.owner site.property with
  | some (.blockList blocks) => blocks[block]?
  | _ => none

/-- The blocks of a branch are found by their positions. -/
theorem block?_eq {blocks : List (Block Node Handle)}
    (hbranch : σ.branch? o name = some (.blockList blocks)) (block : Nat) :
    σ.block? ⟨o, name⟩ block = blocks[block]? := by
  rw [block?, hbranch]

/-- The number of blocks of a branch. -/
theorem blockCount_eq {blocks : List (Block Node Handle)}
    (hbranch : σ.branch? o name = some (.blockList blocks)) :
    σ.blockCount ⟨o, name⟩ = blocks.length := by
  rw [blockCount, hbranch]
  rfl

end Store

/-- A handle is stale: it named a state that has since been removed. -/
def Editor.Stale (before after : Editor) (h : Handle) : Prop :=
  before.store.Live h ∧ ¬ after.store.Live h

/-- What an event says of an edit is true of the editors before and after it. The events of lives
are accounted for as a whole and say nothing here.

The handle of a state that went away is stale. What the arena tells of it (`Arena.isStale`) is
compared from the generations: the cell of a removed state is empty, but that of a replaced one has
the new state in it, and is of a later generation unless the counting has started over. -/
def Event.Truthful (before after : Editor) : Event → Prop
  | inserted place h => ¬ before.store.Live h ∧ after.stateAt? place = some h
  | removed place h =>
    before.stateAt? place = some h ∧ before.Stale after h ∧ after.store.arena.isStale h = true
  | replaced place old new =>
    before.stateAt? place = some old ∧ before.Stale after old ∧
      (after.store.arena.isStale old = true ↔ old.generation + 1 ≠ 0) ∧
        ¬ before.store.Live new ∧ after.stateAt? place = some new
  | moved source target h => before.stateAt? source = some h ∧ after.stateAt? target = some h
  | assigned place h =>
    before.stateAt? place = some h ∧ after.stateAt? place = some h ∧
      before.node? h = none ∧ (after.node? h).isSome
  | unassigned place h =>
    before.stateAt? place = some h ∧ after.stateAt? place = some h ∧
      (before.node? h).isSome ∧ after.node? h = none
  | blockInserted site block => ∃ content, after.store.block? site block = some content ∧
      ∀ member ∈ content.members, ¬ before.store.Live member
  | blockDestroyed site block =>
    (before.store.block? site block).isSome ∧
      after.store.blockCount site < before.store.blockCount site
  | blockMoved site source target => ∃ content,
      before.store.block? site source = some content ∧
        after.store.block? site target = some content
  | blockSplit site block position => ∃ content header,
      before.store.block? site block = some content ∧
        after.store.block? site block =
          some { content with members := content.members.take position } ∧
        after.store.block? site (block + 1) = some ⟨header, content.members.drop position⟩
  | blocksMerged site block position => ∃ content next,
      before.store.block? site block = some content ∧
        before.store.block? site (block + 1) = some next ∧ content.members.length = position ∧
        after.store.block? site block =
          some { content with members := content.members ++ next.members }
  | replicationChanged site block replication => ∃ content,
      before.store.block? site block = some content ∧
        after.store.block? site block =
          some { content with header := { content.header with replication } }
  | valueChanged h property => ∃ node old new, before.node? h = some node ∧
      node.property? property = some (.value old) ∧
        after.node? h = some (node.set property (.value new))
  | refreshed h => after.store.Live h
  | stateCreated .. | stateSettled .. | stateDestroyed .. | blockListCreated ..
  | blockCreated .. => True

/-- There is nothing to be told of lives. -/
theorem Event.OfLife.truthful {event : Event} (h : event.OfLife) (before after : Editor) :
    event.Truthful before after := by
  cases event with
  | stateCreated | stateSettled | stateDestroyed | blockListCreated | blockCreated => exact trivial
  | _ => cases h

/-- An editor has announced what made it another one: all of it is true, and not all of it are the
lives of states. -/
def Editor.Reports (before after : Editor) : Prop :=
  ∃ events, after.store.journal.toList = before.store.journal.toList ++ events ∧
    (∀ event ∈ events, event.Truthful before after) ∧ ∃ event ∈ events, ¬ event.OfLife

namespace Store

variable {σ σ' : Store} {h o : Handle} {name : String}

/-! ## States that are gone -/

/-- The handle of a state that is gone is stale when no cell was used again. -/
theorem isStale_of_gone (hgenerations : σ'.arena.generations = σ.arena.generations)
    (hlive : σ.Live h) (hgone : ¬ σ'.Live h) : σ'.arena.isStale h = true := by
  obtain ⟨state, hstate⟩ := hlive
  refine Arena.isStale_iff.mpr ⟨h.generation, ?_, .inr ⟨rfl, not_live.mp hgone⟩⟩
  rw [hgenerations, Arena.generations, List.getElem?_map, Arena.get?_eq_some.mp hstate]
  rfl

/-- A live handle is of the generation of its cell. -/
theorem getElem?_generations (hlive : σ.Live h) :
    σ.arena.generations[h.index]? = some h.generation := by
  obtain ⟨state, hstate⟩ := hlive
  rw [Arena.generations, List.getElem?_map, Arena.get?_eq_some.mp hstate]
  rfl

/-- The next generation is a later one unless the counting starts over. -/
theorem lt_next_generation {generation : UInt32} :
    generation < generation + 1 ↔ generation + 1 ≠ 0 := by
  have hnext : generation + 1 = 0 ↔ (generation + 1).toNat = 0 := UInt32.toNat_inj.symm
  have hlt := generation.toNat_lt
  rw [ne_eq, hnext, UInt32.lt_iff_toNat_lt, UInt32.toNat_add, UInt32.toNat_one]
  omega

/-- The next generation of a live state is not live. -/
theorem not_live_next (hlive : σ.Live h) : ¬ σ.Live ⟨h.index, h.generation + 1⟩ := fun hnext => by
  have hcell := getElem?_generations hlive
  rw [getElem?_generations hnext, Option.some.injEq] at hcell
  exact left_ne_add.mpr (by decide) hcell.symm

/-- Where its next generation is live a handle is told to be stale, unless the counting has started
over. -/
theorem isStale_iff_of_next (hnext : σ.Live ⟨h.index, h.generation + 1⟩) :
    σ.arena.isStale h = true ↔ h.generation + 1 ≠ 0 := by
  have hcell := getElem?_generations hnext
  rw [Arena.isStale_iff, ← lt_next_generation]
  constructor
  · rintro ⟨generation, hgeneration, hlt | ⟨heq, -⟩⟩
    · rw [hcell, Option.some.injEq] at hgeneration
      rwa [← hgeneration] at hlt
    · rw [hcell, Option.some.injEq, ← heq] at hgeneration
      exact absurd hgeneration.symm (left_ne_add.mpr (by decide))
  · exact fun hlt => ⟨h.generation + 1, hcell, .inl hlt⟩

/-- The next state takes the cell of the one that was removed last. -/
theorem allocate_of_destroy (hdestroy : σ.destroy h = .ok σ') (place : Place) :
    (σ'.allocate place).1 = ⟨h.index, h.generation + 1⟩ := by
  obtain ⟨-, σ₁, last, arena, -, -, hremove, rfl⟩ := destroyWithin_succ_eq_ok.mp hdestroy
  obtain ⟨hvalue, rfl⟩ := Arena.remove_eq_some.mp hremove
  obtain ⟨hlt, -⟩ := List.getElem?_eq_some_iff.mp (Arena.get?_eq_some.mp hvalue)
  simp [allocate, announce, Arena.insert, Arena.generationAt, hlt]

/-- The states under some states, themselves included. -/
def below (σ : Store) (roots : List Handle) : Set Handle := {g | ∃ root ∈ roots, σ.Under root g}

/-- A state is among those under it. -/
theorem mem_below_self (σ : Store) (h : Handle) : h ∈ σ.below [h] :=
  ⟨h, List.mem_singleton_self h, .refl⟩

/-- The children of a state that is under others are so too. -/
theorem child_mem_below {roots : List Handle} {g child : Handle} {slot : Slot}
    (hg : g ∈ σ.below roots) (hplace : σ.place? child = some (.within g name slot)) :
    child ∈ σ.below roots := by
  obtain ⟨root, hroot, hunder⟩ := hg
  exact ⟨root, hroot, .within hplace hunder⟩

/-- A branch that is set and whose children are then given their places stays as it was set. -/
theorem branch?_rearrange {old new : Branch} (hbranch : σ.branch? o name = some old)
    (hreindex : (σ.setBranch o name new).reindex o name = .ok σ') :
    σ'.branch? o name = some new :=
  ((silent_reindex hreindex).branch? o name).trans
    (branch?_setBranch (live_of_branch? hbranch) name new)

/-- The stage of a state is of no account to branches. -/
theorem branch?_setStage (stage : Stage) (g : Handle) :
    (σ.setStage h stage).branch? g name = σ.branch? g name := by
  rw [branch?, branch?, get?_setStage]
  split
  · rename_i hg
    rw [hg, Option.bind_map]
    rfl
  · rfl

end Store

namespace Locus

variable {editor next : Editor} {ν ν' : Handle → Option Node} {address : BranchPath}
  {edit : Edit} {roots : List Handle}

/-- The owner of a branch is under none of the children of the branch. -/
theorem owner_notMem_below (locus : Locus editor ν address)
    (hroots : ∀ root ∈ roots, ∃ slot, locus.branch.childAt? slot = some root) :
    locus.owner ∉ editor.store.below roots := by
  rintro ⟨root, hroot, hunder⟩
  obtain ⟨slot, hslot⟩ := hroots root hroot
  exact locus.not_under (locus.stands_iff.mpr hslot) hunder

/-- The states under some states can be removed when they are without branches afterwards: it is
true of all their blocks that they go away. -/
theorem removable_below (locus : Locus editor ν address) (roots : List Handle)
    (hbare : ∀ g ∈ editor.store.below roots, editor.store.Live g →
      ∀ name, next.store.branch? g name = none) :
    Store.Removable (Event.Truthful editor next) editor.store (editor.store.below roots) where
  owned := fun g _ state hstate => locus.mirrors.standing.owned g state hstate
  children := fun g hg state hstate entry hentry child hchild => by
    obtain ⟨slot, hslot⟩ := Branch.mem_children.mp hchild
    exact Store.child_mem_below hg
      (locus.mirrors.standing.place?_of_entry hstate (Set.notMem_empty g) hentry hslot)
  destroyed := fun _ _ => trivial
  block := fun g hg state hstate entry hentry blocks hblocks block hlt => by
    have hkeys := (locus.mirrors.standing.settled g state hstate (Set.notMem_empty g)).keys
    have hbranch : editor.store.branch? g entry.1 = some (.blockList blocks) := by
      rw [Store.branch?, hstate, Option.bind_some, ← hblocks]
      exact (Table.mem_iff_get? hkeys).mp hentry
    constructor
    · rw [Store.block?_eq hbranch, List.getElem?_eq_getElem hlt]
      rfl
    · have hnone := hbare g hg ⟨state, hstate⟩ entry.1
      rw [Store.blockCount_eq hbranch, Store.blockCount, hnone, Option.elim_none]
      omega

/-- Some children of a branch stand in slots that an edit discards. -/
def Discarded (locus : Locus editor ν address) (edit : Edit) (roots : List Handle) : Prop :=
  ∀ root ∈ roots, ∃ slot, locus.branch.childAt? slot = some root ∧
    ∀ path, address.child slot <+: path → edit.Discards path

/-- What is under children that an edit discards is gone after the edit. -/
theorem Discarded.gone {locus : Locus editor ν address} (h : locus.Discarded edit roots)
    (hturns : editor.store.Turns edit ν next.store ν') {g : Handle}
    (hg : g ∈ editor.store.below roots) (hlive : editor.store.Live g) : ¬ next.store.Live g := by
  obtain ⟨root, hroot, hunder⟩ := hg
  obtain ⟨slot, hslot, hdiscards⟩ := h root hroot
  have hclimbs := locus.climbs_child_iff.mpr (locus.stands_iff.mpr hslot)
  obtain ⟨path, hg, hprefix⟩ := (locus.mirrors.standing.under_iff_exists hclimbs hlive).mp hunder
  rw [hturns.gone g hlive, not_not]
  exact ⟨path, hg, hdiscards path hprefix⟩

/-- What is under children that an edit discards can be removed. -/
theorem Discarded.removable {locus : Locus editor ν address} (h : locus.Discarded edit roots)
    (hturns : editor.store.Turns edit ν next.store ν') :
    Store.Removable (Event.Truthful editor next) editor.store (editor.store.below roots) :=
  locus.removable_below roots fun g hg hlive name => by
    rw [Store.branch?, Store.not_live.mp (h.gone hturns hg hlive), Option.bind_none]

/-- The owner of a branch is under none of the children that an edit discards. -/
theorem Discarded.owner_notMem {locus : Locus editor ν address} (h : locus.Discarded edit roots) :
    locus.owner ∉ editor.store.below roots :=
  locus.owner_notMem_below fun root hroot => (h root hroot).imp fun _ => And.left

end Locus

namespace Editor

variable {editor next : Editor} {ν ν' : Handle → Option Node} {branch : BranchPath} {slot : Slot}

/-- What is announced by the steps of an edit and then by the edit is reported. -/
theorem Reports.of_adds {σ : Store} {event : Event}
    (hstore : next.store = σ.announce event) (hedit : event.kind.isLifecycle = false)
    (hadds : editor.store.Adds (Event.Truthful editor next) σ)
    (htruthful : event.Truthful editor next) : Reports editor next := by
  obtain ⟨events, hjournal, hevents⟩ := hadds
  refine ⟨events ++ [event], ?_, fun other hother => ?_, event, by simp, fun hlife => ?_⟩
  · rw [hstore, Store.announce, Array.toList_push, hjournal, List.append_assoc]
  · rcases List.mem_append.mp hother with hmem | hmem
    · exact hevents other hmem
    · exact List.mem_singleton.mp hmem ▸ htruthful
  · rw [Event.OfLife, hedit] at hlife
    cases hlife

/-- What stands in an optional slot is registered for it. -/
theorem stateAt?_optional (hmirrors : editor.Mirrors ν) {owner child : Handle} {property : String}
    (hbranch : editor.store.branch? owner property = some (.optional child)) :
    editor.stateAt? (.within owner property .optional) = some child :=
  (stateAt?_within hmirrors).mpr ⟨_, hbranch, rfl⟩

/-- A state has no node exactly when it is vacant. -/
theorem node?_eq_none_iff (hmirrors : editor.Mirrors ν) {h : Handle} {state : State}
    (hstate : editor.store.get? h = some state) :
    editor.node? h = none ↔ state.stage = .vacant := by
  rw [node?_eq hmirrors ⟨state, hstate⟩]
  exact (hmirrors.standing.settled h state hstate (Set.notMem_empty h)).vacant_iff.symm

/-- A state has a node exactly when it is ready. -/
theorem isSome_node?_iff (hmirrors : editor.Mirrors ν) {h : Handle} {state : State}
    (hstate : editor.store.get? h = some state) :
    (editor.node? h).isSome ↔ state.stage = .ready := by
  rw [node?_eq hmirrors ⟨state, hstate⟩]
  exact (hmirrors.standing.settled h state hstate (Set.notMem_empty h)).stage_iff.symm

/-! ## Edits of one child -/

/-- Where a branch still has the state of an optional child once the edit is made, the state stood
in its slot when it was announced. -/
theorem place_of_left {σ : Store} {owner c : Handle} {place : Place} {stage : Stage} {event : Event}
    {document : Node} {name : String}
    (hmirrors : ({ editor with
      document, store := (σ.setStage c stage).announce event } : Editor).Mirrors ν)
    (hleft : (σ.setStage c stage).branch? owner name = some (.optional c))
    (hstands : σ.place? c = some place) : place = .within owner name .optional := by
  have hstill := (stateAt?_iff hmirrors).mp (stateAt?_optional hmirrors hleft)
  exact Option.some.inj (hstands.symm.trans ((Store.place?_setStage c c stage).symm.trans hstill))

section

variable (hmirrors : editor.Mirrors ν) (hmirrors' : next.Mirrors ν')

include hmirrors hmirrors'

/-- An insertion is reported. -/
theorem Enacts.reports_insert {node : Node} (hnode : node.WellFormed)
    (h : editor.Enacts (.insert branch slot node) next) : Reports editor next := by
  have htidy := Sound.tidy ⟨ν, hmirrors⟩
  cases h with
  | @insert _ _ _ _ _ _ _ new _ _ _ owns changed allocated held put reindexed settled =>
    have hgains := Store.gains_settle (Grammar.told_growth hmirrors.distinct hnode)
      (Grammar.births_growth hnode) htidy allocated held (Branch.changes_of_insert put).blockCount
      (Store.silent_reindex reindexed) settled
    exact .of_adds rfl rfl (hgains.adds.mono fun _ hlife => hlife.truthful _ _) ⟨hgains.fresh,
      (stateAt?_within hmirrors').mpr ⟨new, hgains.left, Branch.childAt?_insert put⟩⟩

/-- A move is reported. -/
theorem Enacts.reports_move {delta : Int} (h : editor.Enacts (.move branch slot delta) next) :
    Reports editor next := by
  cases h with
  | @move _ _ _ _ _ _ target old new _ owns held moved changed reindexed arrived =>
    obtain ⟨child, hslot, htarget⟩ := Branch.childAt?_move moved
    rw [htarget] at arrived
    cases arrived
    have hleft := Store.branch?_rearrange held reindexed
    exact .of_adds rfl rfl (Store.silent_reindex reindexed).adds
      ⟨(stateAt?_within hmirrors).mpr ⟨old, held, hslot⟩,
        (stateAt?_within hmirrors').mpr ⟨new, hleft, htarget⟩⟩

/-- A removal is reported. -/
theorem Enacts.reports_remove {node : Node}
    (hturns : editor.store.Turns (.remove branch slot node) ν next.store ν')
    (h : editor.Enacts (.remove branch slot node) next) : Reports editor next := by
  cases h with
  | @remove _ _ _ _ _ c _ _ _ σ₂ owns held changed taken destroyed reindexed =>
    obtain ⟨locus, rfl, rfl⟩ := exists_locus hmirrors owns (Store.branch_eq_ok.mpr held)
    have hslot := Branch.childAt?_of_remove taken
    have hdiscarded : locus.Discarded (.remove branch slot node) [c] := fun root hroot => by
      rw [List.mem_singleton.mp hroot]
      exact ⟨slot, hslot, fun _ => id⟩
    have hmem := Store.mem_below_self editor.store c
    have hspares := Store.spares_destroy
      ((hdiscarded.removable hturns).setBranch hdiscarded.owner_notMem _ _) hmem destroyed
    have hlive := Store.live_of_place? (locus.stands_iff.mpr hslot)
    have hgone := hdiscarded.gone hturns hmem hlive
    have hgenerations : σ₂.arena.generations = editor.store.arena.generations :=
      (Store.generations_reindex reindexed).trans
        (hspares.generations.trans (Arena.generations_modify locus.owner _))
    exact .of_adds rfl rfl (hspares.adds.trans (Store.silent_reindex reindexed).adds)
      ⟨(stateAt?_within hmirrors).mpr ⟨_, locus.held, hslot⟩, ⟨hlive, hgone⟩,
        Store.isStale_of_gone hgenerations hlive hgone⟩

/-- A replacement is reported. -/
theorem Enacts.reports_replace {before after : Node} (hafter : after.WellFormed)
    (hturns : editor.store.Turns (.replace branch slot before after) ν next.store ν')
    (h : editor.Enacts (.replace branch slot before after) next) : Reports editor next := by
  have htidy := Sound.tidy ⟨ν, hmirrors⟩
  cases h with
  | @replace _ _ _ _ _ _ current c old _ _ new _ σ₁ σ₂ σ₃ owns found hslot state changed destroyed
      allocated kept put settled =>
    obtain ⟨locus, rfl, rfl⟩ := exists_locus hmirrors owns (Store.branch_eq_ok.mpr found)
    -- The old state stands in the slot, so the new one is made there.
    have hplace := locus.stands_iff.mpr hslot
    have hlive := Store.live_of_place? hplace
    rw [Store.place?, state, Option.map_some, Option.some.injEq] at hplace
    have hdiscarded : locus.Discarded (.replace branch slot before after) [current] :=
      fun root hroot => by
        rw [List.mem_singleton.mp hroot]
        exact ⟨slot, hslot, fun _ => id⟩
    have hmem := Store.mem_below_self editor.store current
    have hgone := hdiscarded.gone hturns hmem hlive
    have hspares := Store.spares_destroy (hdiscarded.removable hturns) hmem destroyed
    have htidy₁ : σ₁.Tidy := (Store.loses_destroy htidy destroyed).tidy htidy
    have hgains := Store.gains_settle (Grammar.told_growth hmirrors.distinct hafter)
      (Grammar.births_growth hafter) htidy₁ allocated kept (Branch.blockCount_replaceChild put)
      ⟨Store.accounts_enroll _ _, fun _ => rfl⟩ settled
    -- The branch is still the one that was read, so the new state is in the slot of the old one.
    have hheld := locus.held
    rw [Store.branch?, ← hspares.kept _ hdiscarded.owner_notMem, ← Store.branch?, hgains.held,
      Option.some.injEq] at hheld
    obtain ⟨new', hnew', hslots⟩ := Branch.exists_replaceChild branch.property c hslot
    rw [hheld, hnew'] at put
    cases put
    have hnew : new.childAt? slot = some c := by rw [hslots, if_pos rfl]
    have hnext := (stateAt?_within hmirrors').mpr ⟨new, hgains.left, hnew⟩
    rw [← hplace] at hnext
    -- The new state has the cell of the old one, in its next generation.
    have hc : c = ⟨current.index, current.generation + 1⟩ := by
      rw [← Store.allocate_of_destroy destroyed old.place, allocated]
    have hlive' := Store.live_of_place? ((stateAt?_iff hmirrors').mp hnext)
    refine .of_adds rfl rfl
      (hspares.adds.trans (hgains.adds.mono fun _ hlife => hlife.truthful _ _))
      ⟨?_, ⟨hlive, hgone⟩, Store.isStale_iff_of_next (hc ▸ hlive'), ?_, hnext⟩
    · rw [hplace]
      exact (stateAt?_within hmirrors).mpr ⟨_, locus.held, hslot⟩
    · rw [hc]
      exact Store.not_live_next hlive

/-! ## Edits of an optional child -/

/-- An edit of an optional child leaves its state in the slot, where it is announced last. -/
structure Toggles (editor next : Editor) (branch : BranchPath) (told : Place → Handle → Event)
    (p : Event → Prop) (owner h : Handle) : Prop where
  owns : editor.readyOwner branch.owner = .ok owner
  held : editor.store.branch? owner branch.property = some (.optional h)
  left : next.store.branch? owner branch.property = some (.optional h)
  announced : ∃ σ, next.store = σ.announce (told (.within owner branch.property .optional) h) ∧
    editor.store.Adds p σ

/-- An assignment keeps all places, and the state in the slot, which had no node, gets one. -/
theorem Enacts.toggles_assign {before : Option Node} {after : Node} (hafter : after.WellFormed)
    (h : editor.Enacts (.assign branch before after) next) :
    ∃ owner g, Toggles editor next branch .assigned Event.OfLife owner g ∧
      editor.node? g = none ∧ (next.node? g).isSome ∧
        ∀ other place, editor.store.place? other = some place →
          next.store.place? other = some place := by
  have htidy := Sound.tidy ⟨ν, hmirrors⟩
  cases h with
  | @assign _ _ _ _ owner c state place σ₁ owns held found vacant changed grown stands =>
    have hat := (stateAt?_iff hmirrors).mp (stateAt?_optional hmirrors held)
    have hbare := branches_eq_nil hmirrors found vacant
    have hne : owner ≠ c := by
      rintro rfl
      rw [Store.branch?, found, Option.bind_some, hbare] at held
      cases held
    -- A vacant state has no branches, so those of the item can be grown, and no others change.
    obtain ⟨-, hkeeps⟩ := Grammar.told_growth hmirrors.distinct hafter editor.store c state σ₁
      htidy found hbare grown
    have hleft : (σ₁.setStage c .ready).branch? owner branch.property = some (.optional c) := by
      rw [Store.branch?_setStage, hkeeps.branch? (Store.live_of_branch? held) hne, held]
    obtain rfl := place_of_left hmirrors' hleft stands
    obtain ⟨last, hlast⟩ := hkeeps.live c ⟨state, found⟩
    have hready : (σ₁.setStage c .ready).get? c = some { last with stage := .ready } := by
      rw [Store.get?_setStage, if_pos rfl, hlast]
      rfl
    refine ⟨owner, c, ⟨owns, held, hleft, σ₁.setStage c .ready, rfl,
      Grammar.births_growth hafter editor.store c σ₁ grown⟩,
      (node?_eq_none_iff hmirrors found).mpr vacant, (isSome_node?_iff hmirrors' hready).mpr rfl,
      fun other place hother => ?_⟩
    -- Only the state in the slot is written to, and its place is that of the slot before and after.
    by_cases hsame : other = c
    · rw [hsame, hat] at hother
      cases hother
      rw [hsame]
      exact (stateAt?_iff hmirrors').mp (stateAt?_optional hmirrors' hleft)
    · have hsteady : σ₁.place? other = some place := by
        rwa [Store.place?, hkeeps.get? other (Store.live_of_place? hother) hsame]
      exact (Store.place?_setStage c other .ready).trans hsteady

/-- An assignment is reported. -/
theorem Enacts.reports_assign {before : Option Node} {after : Node} (hafter : after.WellFormed)
    (h : editor.Enacts (.assign branch before after) next) : Reports editor next := by
  obtain ⟨owner, g, htoggles, hvacant, hready, -⟩ := h.toggles_assign hmirrors hmirrors' hafter
  obtain ⟨σ, hstore, hadds⟩ := htoggles.announced
  exact .of_adds hstore rfl (hadds.mono fun _ hlife => hlife.truthful _ _)
    ⟨stateAt?_optional hmirrors htoggles.held, stateAt?_optional hmirrors' htoggles.left, hvacant,
      hready⟩

/-- What was under the state in a slot that is emptied is gone, and the state has no branches. -/
theorem bare_of_unassign {item : Node} {restore : Option Node} {handle : Handle} {last : State}
    (hturns : editor.store.Turns (.unassign branch item restore) ν next.store ν')
    (hclimbs : editor.store.Climbs handle (branch.child .optional))
    (hlast : next.store.get? handle = some last) (hvacant : last.stage = .vacant) :
    ∀ g ∈ editor.store.below [handle], editor.store.Live g →
      ∀ name, next.store.branch? g name = none := by
  rintro g ⟨root, hroot, hunder⟩ hlive name
  obtain rfl := List.mem_singleton.mp hroot
  -- The edit discards the paths strictly below the slot; the one of the slot itself is kept.
  by_cases hg : g = root
  · rw [hg, Store.branch?, hlast, Option.bind_some, branches_eq_nil hmirrors' hlast hvacant]
    rfl
  · obtain ⟨path, hpath, hprefix⟩ :=
      (hmirrors.standing.under_iff_exists hclimbs hlive).mp hunder
    have hgone : ¬ next.store.Live g := by
      rw [hturns.gone g hlive, not_not]
      exact ⟨path, hpath, hprefix,
        fun heq => hg (hmirrors.standing.climbs_inj hpath (heq ▸ hclimbs))⟩
    rw [Store.branch?, Store.not_live.mp hgone, Option.bind_none]

/-- An unassignment leaves the state in the slot without a node. -/
theorem Enacts.toggles_unassign {item : Node} {restore : Option Node}
    (hturns : editor.store.Turns (.unassign branch item restore) ν next.store ν')
    (h : editor.Enacts (.unassign branch item restore) next) :
    ∃ owner g, Toggles editor next branch .unassigned (Event.Truthful editor next) owner g ∧
      (editor.node? g).isSome ∧ next.node? g = none := by
  cases h with
  | @unassign _ _ _ _ _ c state place σ₁ owns held found ready changed cleared stands =>
    obtain ⟨locus, rfl, hbranch⟩ := exists_locus hmirrors owns (Store.branch_eq_ok.mpr held)
    have hslot := locus.childAt?_optional hbranch
    have hclimbs := locus.climbs_child_iff.mpr (locus.stands_iff.mpr hslot)
    -- The state itself stays and is vacant; what was under it goes.
    obtain ⟨last, hlast⟩ := (hturns.gone c ⟨state, found⟩).mpr (by
      rintro ⟨_, hpath, _, hbelow⟩
      exact hbelow (hpath.unique hclimbs))
    have hvacant : last.stage = .vacant := by
      have hset : (σ₁.setStage c .vacant).get? c = some last := hlast
      rw [Store.get?_setStage, if_pos rfl] at hset
      obtain ⟨cleared, -, rfl⟩ := Option.map_eq_some_iff.mp hset
      rfl
    have hbare := bare_of_unassign hmirrors hmirrors' hturns hclimbs hlast hvacant
    have hspares := Store.spares_clear (locus.removable_below [c] hbare)
      (Store.mem_below_self editor.store c) cleared
    have howner := locus.owner_notMem_below (fun root hroot => ⟨.optional, by
      rw [List.mem_singleton.mp hroot, hslot]⟩)
    have hleft : (σ₁.setStage c .vacant).branch? locus.owner branch.property =
        some (.optional c) := by
      rw [Store.branch?_setStage, ← held, Store.branch?, hspares.kept _ howner, Store.branch?]
    obtain rfl := place_of_left hmirrors' hleft stands
    exact ⟨locus.owner, c, ⟨owns, held, hleft, σ₁.setStage c .vacant, rfl, hspares.adds⟩,
      (isSome_node?_iff hmirrors found).mpr ready, (node?_eq_none_iff hmirrors' hlast).mpr hvacant⟩

/-- An unassignment is reported. -/
theorem Enacts.reports_unassign {item : Node} {restore : Option Node}
    (hturns : editor.store.Turns (.unassign branch item restore) ν next.store ν')
    (h : editor.Enacts (.unassign branch item restore) next) : Reports editor next := by
  obtain ⟨owner, g, htoggles, hready, hvacant⟩ := h.toggles_unassign hmirrors hmirrors' hturns
  obtain ⟨σ, hstore, hadds⟩ := htoggles.announced
  exact .of_adds hstore rfl hadds ⟨stateAt?_optional hmirrors htoggles.held,
    stateAt?_optional hmirrors' htoggles.left, hready, hvacant⟩

end

end Editor

end TreeEditor
