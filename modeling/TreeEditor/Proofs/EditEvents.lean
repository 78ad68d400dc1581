import TreeEditor.Proofs.EditSteps
import TreeEditor.Proofs.Runs
import TreeEditor.Proofs.GrowthEvents

/-!
# Edits are told

Whatever an edit makes of the states is told of when it is done, and nothing is owed
(`Store.Recounted`). An edit rearranges a branch, makes states or removes them, gives the shifted
siblings their places and announces itself. Rearranging and shifting need no event
(`Store.Silent`), unless blocks come or go: then the edit owes them until it announces them
(`Store.accounts_rearrange`).

A block that is inserted is announced before its members and one that is removed after them. A block
that is split or joined with another one is announced without any of its members.
-/

namespace TreeEditor

open Event (lives balance creations)

/-! ## Blocks -/

namespace Branch

variable {branch branch' : Branch} {name : String} {slot : Slot} {child : Handle}

/-- A change of one list leaves the number of blocks. -/
theorem Changes.blockCount {change : Nat → List Handle → List Handle → Prop}
    (h : Changes change slot branch branch') : branch'.blockCount = branch.blockCount := by
  cases h with
  | list done => rfl
  | member done => simp [Branch.blockCount]

/-- Replacing a child leaves the number of blocks. -/
theorem blockCount_replaceChild {old : Handle}
    (h : branch.replaceChild name slot child = .ok (old, branch')) :
    branch'.blockCount = branch.blockCount := by
  cases branch with
  | placeholder current | optional current =>
    cases slot <;> cases h
    rfl
  | list children =>
    cases slot with
    | list position =>
      obtain ⟨_, -, hlast⟩ := bind_eq_ok.mp h
      cases hlast
      rfl
    | _ => cases h
  | blockList blocks =>
    cases slot with
    | member block position =>
      obtain ⟨content, -, hlast⟩ := bind_eq_ok.mp h
      obtain ⟨_, -, hlast⟩ := bind_eq_ok.mp hlast
      cases hlast
      simp [blockCount, Blocks.setMembers]
    | _ => cases h

end Branch

namespace Store

variable {σ σ₁ σ' : Store} {g h o : Handle} {name : String}

/-! ## Shifted siblings -/

/-- A step that needs no event, leaves the states their branches and makes none. -/
structure Silent (σ σ' : Store) : Prop where
  accounts : σ.Accounts σ' [] 0
  inners : ∀ g, (σ'.get? g).map State.inners = (σ.get? g).map State.inners

/-- Nothing need happen. -/
theorem Silent.refl (σ : Store) : σ.Silent σ := ⟨.refl σ, fun _ => rfl⟩

/-- Silent steps one after the other are silent. -/
theorem Silent.trans (h : σ.Silent σ₁) (h' : σ₁.Silent σ') : σ.Silent σ' where
  accounts := by simpa using h.accounts.trans h'.accounts
  inners := fun g => (h'.inners g).trans (h.inners g)

/-- A silent step leaves the states their branches. -/
theorem Silent.branches (h : σ.Silent σ') (g : Handle) :
    (σ'.get? g).map State.branches = (σ.get? g).map State.branches := by
  have hbranches : ∀ τ : Store, (τ.get? g).map State.branches = ((τ.get? g).map State.inners).map
      fun inners => inners.map fun entry => (entry.1, entry.2.branch) := fun τ => by
    rw [Option.map_map]
    rfl
  rw [hbranches, hbranches, h.inners]

/-- Moving a state to a place needs no event. -/
theorem silent_relocate {place : Place} (hmoved : σ.relocate place h = .ok σ') : σ.Silent σ' := by
  obtain ⟨state, -, hmoved⟩ := bind_eq_ok.mp hmoved
  split at hmoved
  · cases hmoved
    exact .refl σ
  · cases hmoved
    obtain ⟨register, heq⟩ :=
      dismiss_eq (σ.modify h fun state => { state with place }) state.place h
    rw [heq]
    have hplaced : σ.Accounts (σ.modify h fun state => { state with place }) [] 0 :=
      accounts_modify_of_inners h _ fun _ => rfl
    refine ⟨(hplaced.trans (accounts_register register)).congr fun _ => by simp, fun g => ?_⟩
    change ((σ.modify h fun state => { state with place }).get? g).map State.inners = _
    rw [get?_modify]
    split
    · rename_i hg
      rw [hg, Option.map_map]
      rfl
    · rfl

/-- Giving the children of a branch their places needs no event. -/
theorem silent_reindex (hreindex : σ.reindex o name = .ok σ') : σ.Silent σ' :=
  reindex_keeps .refl (fun _ _ _ => .trans) (fun _ _ _ _ => silent_relocate)
    (fun _ _ _ => ⟨accounts_enroll _ _, fun _ => rfl⟩) hreindex

/-- Blocks are put in the place of others; the difference in number is owed. -/
theorem accounts_rearrange {blocks blocks' : List (Block Node Handle)}
    (hblocks : σ.branch? o name = some (.blockList blocks))
    (hreindex : (σ.setBranch o name (.blockList blocks')).reindex o name = .ok σ') :
    σ.Accounts σ' [] (Pi.single ⟨o, name⟩ ((blocks'.length : Int) - blocks.length)) := by
  have hset : σ.Accounts (σ.setBranch o name (.blockList blocks')) [] _ :=
    accounts_setBranch (live_of_branch? hblocks) (.blockList blocks')
  rw [show σ.blockCount ⟨o, name⟩ = blocks.length by rw [blockCount, hblocks]; rfl] at hset
  exact (hset.trans (silent_reindex hreindex).accounts).congr fun _ => by simp [Branch.blockCount]

/-! ## Steps that are told in full -/

/-- Some events tell the difference between two stores, and nothing is owed. -/
def Recounted (σ σ' : Store) : Prop := ∃ events, σ.Accounts σ' events 0

namespace Recounted

/-- What is told of one step after the other is told of both. -/
theorem trans (h : σ.Recounted σ₁) (h' : σ₁.Recounted σ') : σ.Recounted σ' := by
  obtain ⟨events, haccounts⟩ := h
  obtain ⟨events', haccounts'⟩ := h'
  exact ⟨_, (haccounts.trans haccounts').congr fun _ => by simp⟩

/-- The blocks that one step owes the next one settles. -/
theorem settle {site : BranchRef} {events events' : List Event} {change change' : Int}
    (h : σ.Accounts σ₁ events (Pi.single site change))
    (h' : σ₁.Accounts σ' events' (Pi.single site change')) (hsum : change + change' = 0) :
    σ.Recounted σ' :=
  ⟨_, (h.trans h').congr fun branch => by rw [← Pi.single_add, hsum, Pi.single_zero]⟩

/-- A step that needs no event is told. -/
theorem silent (h : σ.Silent σ') : σ.Recounted σ' := ⟨[], h.accounts⟩

/-- What only goes away is told. -/
theorem loses (h : σ.Loses σ' 0) : σ.Recounted σ' := h.1

/-- A further announcement that tells nothing of lives and blocks. -/
theorem announce (h : σ.Recounted σ') {event : Event} (hquiet : event.Quiet)
    (hblocks : ∀ branch, event.blockChange branch = 0) : σ.Recounted (σ'.announce event) :=
  h.trans ⟨_, accounts_announce_of_eq hquiet hblocks⟩

/-- What is told leaves a store tidy. -/
theorem tidy (h : σ.Recounted σ') (htidy : σ.Tidy) : σ'.Tidy := by
  obtain ⟨events, haccounts⟩ := h
  exact haccounts.tidy htidy

end Recounted

/-- A child is made, put into the branch of its parent and settled, and that is told of. -/
theorem recounted_make {place place' : Place} {c : Handle} {σ₂ : Store} {old new : Branch}
    {grow : Growth} (hgrowth : Told grow) (htidy : σ.Tidy) (hallocate : σ.allocate place = (c, σ₁))
    (hbranch : σ₁.branch? o name = some old) (hcount : new.blockCount = old.blockCount)
    (hsilent : (σ₁.setBranch o name new).Silent σ₂)
    (hsettle : σ₂.settle place' c (some grow) = .ok σ') : σ.Recounted σ' := by
  have hnew : σ₁.get? c = some ⟨place, .created, []⟩ :=
    (get?_of_allocate htidy.arena hallocate c).trans (if_pos rfl)
  -- The new state has no branches, so it is another one than the parent.
  have hne : c ≠ o := by
    rintro rfl
    rw [branch?, hnew] at hbranch
    cases hbranch
  have hset : σ₁.Accounts (σ₁.setBranch o name new) [] 0 := accounts_setBranch_of_eq hbranch hcount
  refine accounts_settle (fun g hg => by cases hg; exact hgrowth) htidy hallocate
    ((hset.trans hsilent.accounts).congr fun _ => by simp) ?_ hsettle
  rw [hsilent.branches, get?_setBranch, if_neg hne, hnew]
  rfl

end Store

open Store (Recounted)

namespace Editor

variable {editor next : Editor} {branch : BranchPath} {slot : Slot}

/-! ## Edits of one child -/

/-- An insertion is told of. -/
theorem Enacts.recounted_insert (hgrammar : editor.grammar.Distinct) (htidy : editor.store.Tidy)
    {node : Node} (hnode : node.WellFormed) (h : editor.Enacts (.insert branch slot node) next) :
    editor.store.Recounted next.store := by
  cases h with
  | insert owns changed allocated held put reindexed settled =>
    -- The state is made, put among its siblings and settled, and the insertion is announced last.
    have hmade := Store.recounted_make (Grammar.told_growth hgrammar hnode) htidy allocated held
      (Branch.changes_of_insert put).blockCount (Store.silent_reindex reindexed) settled
    exact hmade.announce ⟨fun _ => rfl, fun _ => rfl⟩ fun _ => rfl

/-- A removal is told of. -/
theorem Enacts.recounted_remove (htidy : editor.store.Tidy) {node : Node}
    (h : editor.Enacts (.remove branch slot node) next) : editor.store.Recounted next.store := by
  cases h with
  | @remove _ _ _ _ owner _ _ new _ _ owns held changed taken destroyed reindexed =>
    have hset : editor.store.Recounted (editor.store.setBranch owner branch.property new) :=
      ⟨[], Store.accounts_setBranch_of_eq held (Branch.changes_of_remove taken).blockCount⟩
    have hgone := hset.trans (.loses (Store.loses_destroy (hset.tidy htidy) destroyed))
    exact (hgone.trans (.silent (Store.silent_reindex reindexed))).announce
      ⟨fun _ => rfl, fun _ => rfl⟩ fun _ => rfl

/-- A replacement is told of. -/
theorem Enacts.recounted_replace (hgrammar : editor.grammar.Distinct) (htidy : editor.store.Tidy)
    {before after : Node} (hafter : after.WellFormed)
    (h : editor.Enacts (.replace branch slot before after) next) :
    editor.store.Recounted next.store := by
  cases h with
  | @replace _ _ _ _ _ _ _ _ _ _ _ _ _ σ₁ _ _ owns found current state changed destroyed allocated
      kept put settled =>
    -- The old states are gone before the new ones are made.
    have hgone : editor.store.Recounted σ₁ := .loses (Store.loses_destroy htidy destroyed)
    have hmade := Store.recounted_make (Grammar.told_growth hgrammar hafter) (hgone.tidy htidy)
      allocated kept (Branch.blockCount_replaceChild put)
      ⟨Store.accounts_enroll _ _, fun _ => rfl⟩ settled
    exact (hgone.trans hmade).announce ⟨fun _ => rfl, fun _ => rfl⟩ fun _ => rfl

/-- A move is told of. -/
theorem Enacts.recounted_move {delta : Int} (h : editor.Enacts (.move branch slot delta) next) :
    editor.store.Recounted next.store := by
  cases h with
  | @move _ _ _ _ owner _ _ _ new _ owns held moved changed reindexed arrived =>
    have hset : editor.store.Recounted (editor.store.setBranch owner branch.property new) :=
      ⟨[], Store.accounts_setBranch_of_eq held (Branch.changes_of_move moved).blockCount⟩
    exact (hset.trans (.silent (Store.silent_reindex reindexed))).announce
      ⟨fun _ => rfl, fun _ => rfl⟩ fun _ => rfl

/-! ## Edits of an optional child -/

/-- A vacant state has no branches. -/
theorem branches_eq_nil {ν : Handle → Option Node} (hmirrors : editor.Mirrors ν) {h : Handle}
    {state : State} (hstate : editor.store.get? h = some state) (hvacant : state.stage = .vacant) :
    state.branches = [] := by
  have hsettled := hmirrors.standing.settled h state hstate (Set.notMem_empty h)
  rw [hsettled.vacant_iff.mp hvacant] at hsettled
  cases hsettled
  assumption

/-- An assignment is told of. The state of the slot has no branches before. -/
theorem Enacts.recounted_assign {ν : Handle → Option Node} (hmirrors : editor.Mirrors ν)
    (htidy : editor.store.Tidy) {before : Option Node} {after : Node} (hafter : after.WellFormed)
    (h : editor.Enacts (.assign branch before after) next) :
    editor.store.Recounted next.store := by
  cases h with
  | @assign _ _ _ _ _ c state _ σ₁ owns held found vacant changed grown =>
    -- A vacant state has no branches, so those of the item can be grown.
    obtain ⟨hgrown, -⟩ := Grammar.told_growth hmirrors.distinct hafter editor.store c state σ₁ htidy
      found (branches_eq_nil hmirrors found vacant) grown
    have hready : σ₁.Recounted (σ₁.setStage c .ready) :=
      ⟨[], Store.accounts_modify_of_inners c _ fun _ => rfl⟩
    exact (Recounted.trans hgrown hready).announce ⟨fun _ => rfl, fun _ => rfl⟩ fun _ => rfl

/-- An unassignment is told of. -/
theorem Enacts.recounted_unassign (htidy : editor.store.Tidy) {item : Node} {restore : Option Node}
    (h : editor.Enacts (.unassign branch item restore) next) :
    editor.store.Recounted next.store := by
  cases h with
  | @unassign _ _ _ _ _ c _ _ σ₁ owns held found ready changed cleared =>
    have hgone : editor.store.Recounted σ₁ := .loses (Store.loses_clear htidy cleared)
    have hvacant : σ₁.Recounted (σ₁.setStage c .vacant) :=
      ⟨[], Store.accounts_modify_of_inners c _ fun _ => rfl⟩
    exact (hgone.trans hvacant).announce ⟨fun _ => rfl, fun _ => rfl⟩ fun _ => rfl

/-! ## Edits of blocks -/

/-- The members of a new block are made one after the other and told of. -/
theorem recounted_growNodes (hgrammar : editor.grammar.Distinct) {owner : Handle}
    {property : String} {block : Nat} {members : List (Node × Nat)}
    (hmembers : ∀ member ∈ members, member.1.WellFormed) {store store' : Store}
    (htidy : store.Tidy) (h : editor.growNodes owner property block members store = .ok store') :
    store.Recounted store' := by
  induction members generalizing store with
  | nil =>
    cases h
    exact .silent (.refl _)
  | cons member rest ih =>
    obtain ⟨node, position⟩ := member
    rw [growNodes] at h
    dsimp only at h
    cases hallocate : store.allocate (.within owner property (.member block position)) with
    | mk c σ₁ =>
      rw [hallocate] at h
      obtain ⟨σ₂, hmodify, h⟩ := bind_eq_ok.mp h
      obtain ⟨σ₃, hsettle, hrest⟩ := bind_eq_ok.mp h
      obtain ⟨blocks, blocks', hblocks, hinsert, rfl⟩ := Store.modifyBlocks_eq_ok.mp hmodify
      -- A new member is no new block, so nothing is owed for the block list.
      have hcount : (Branch.blockList blocks').blockCount =
          (Branch.blockList blocks).blockCount := by
        obtain ⟨before, content, after, rfl, -, -, rfl⟩ := Blocks.insertMember_eq_ok.mp hinsert
        simp [Branch.blockCount]
      have hmade := Store.recounted_make
        (Grammar.told_growth hgrammar (hmembers (node, position) List.mem_cons_self)) htidy
        hallocate hblocks hcount ⟨Store.accounts_enroll _ _, fun _ => rfl⟩ hsettle
      have htold : store.Recounted (σ₃.announce (.inserted
          (.within owner property (.member block position)) c)) :=
        hmade.announce ⟨fun _ => rfl, fun _ => rfl⟩ fun _ => rfl
      exact htold.trans (ih (fun m hm => hmembers m (List.mem_cons_of_mem _ hm))
        (htold.tidy htidy) hrest)

/-- An insertion of a block is told of: the block while it is empty, then its members. -/
theorem Enacts.recounted_insertBlock (hgrammar : editor.grammar.Distinct)
    (htidy : editor.store.Tidy) {block : Nat} {content : Block Node Node}
    (hmembers : ∀ node ∈ content.members, node.WellFormed)
    (h : editor.Enacts (.insertBlock branch block content) next) :
    editor.store.Recounted next.store := by
  cases h with
  | @insertBlock _ _ _ _ owner _ _ σ₁ _ owns changed held put reindexed grown =>
    obtain ⟨hle, rfl⟩ := insertItem_eq_ok.mp put
    -- The block is there before it is announced, and its members come after that.
    have hopened : editor.store.Recounted
        (σ₁.announce (.blockCreated ⟨owner, branch.property⟩ block)) :=
      .settle (Store.accounts_rearrange held reindexed) (Store.accounts_blockCreated _ _) (by
        rw [List.length_insertIdx_of_le_length hle]
        omega)
    refine (hopened.trans (recounted_growNodes hgrammar (fun member hmember => ?_)
      (hopened.tidy htidy) grown)).announce ⟨fun _ => rfl, fun _ => rfl⟩ fun _ => rfl
    exact hmembers member.1 (List.fst_mem_of_mem_zipIdx hmember)

/-- A removal of a block is told of: its members, then the block that is gone. -/
theorem Enacts.recounted_removeBlock (htidy : editor.store.Tidy) {block : Nat}
    {content : Block Node Node} (h : editor.Enacts (.removeBlock branch block content) next) :
    editor.store.Recounted next.store := by
  cases h with
  | removeBlock owns held taken changed reindexed destroyed =>
    obtain ⟨hthere, rfl⟩ := removeItem_eq_ok.mp taken
    obtain ⟨hlt, -⟩ := List.getElem?_eq_some_iff.mp hthere
    have hset := Store.accounts_rearrange held reindexed
    obtain ⟨⟨events, hgone⟩, -⟩ := Store.loses_destroyMembers (hset.tidy htidy) destroyed
    -- The block stays owed until its members are gone too.
    have hboth := hset.trans hgone
    rw [add_zero] at hboth
    refine Recounted.settle hboth (Store.accounts_blockDestroyed _ _) ?_
    rw [List.length_eraseIdx_of_lt hlt]
    omega

/-- A split of a block is told of: there is one more. -/
theorem Enacts.recounted_splitBlock {block position : Nat} {header : Header Node}
    (h : editor.Enacts (.splitBlock branch block position header) next) :
    editor.store.Recounted next.store := by
  cases h with
  | splitBlock owns held split changed reindexed =>
    have hset := Store.accounts_rearrange held reindexed
    obtain ⟨before, content, after, rfl, -, -, -, rfl⟩ := Blocks.split_eq_ok.mp split
    exact (Recounted.settle hset (Store.accounts_blockCreated _ _) (by simp)).announce
      ⟨fun _ => rfl, fun _ => rfl⟩ fun _ => rfl

/-- Joining two blocks is told of: there is one less. -/
theorem Enacts.recounted_mergeBlocks {block position : Nat} {header : Header Node}
    (h : editor.Enacts (.mergeBlocks branch block position header) next) :
    editor.store.Recounted next.store := by
  cases h with
  | mergeBlocks owns held merged changed reindexed =>
    have hset := Store.accounts_rearrange held reindexed
    obtain ⟨before, content, following, after, rfl, -, -, rfl⟩ := Blocks.merge_eq_ok.mp merged
    exact (Recounted.settle hset (Store.accounts_blockDestroyed _ _) (by simp)).announce
      ⟨fun _ => rfl, fun _ => rfl⟩ fun _ => rfl

/-- A move of a block is told of. -/
theorem Enacts.recounted_moveBlock {block : Nat} {delta : Int}
    (h : editor.Enacts (.moveBlock branch block delta) next) :
    editor.store.Recounted next.store := by
  cases h with
  | @moveBlock _ _ _ _ _ _ _ _ σ₁ owns held moved changed reindexed =>
    have hset := Store.accounts_rearrange held reindexed
    have hlength := (moveItem_perm moved).length_eq
    have htold : editor.store.Recounted σ₁ := ⟨[], hset.congr fun site => by simp [hlength]⟩
    exact htold.announce ⟨fun _ => rfl, fun _ => rfl⟩ fun _ => rfl

/-- A change of replication is told of. -/
theorem Enacts.recounted_changeReplication {block : Nat} {before after : Replication}
    (h : editor.Enacts (.changeReplication branch block before after) next) :
    editor.store.Recounted next.store := by
  cases h with
  | @changeReplication _ _ _ _ _ owner old new owns held set changed =>
    have hcount : (Branch.blockList new).blockCount = (Branch.blockList old).blockCount := by
      obtain ⟨_, _, _, rfl, -, rfl⟩ := Blocks.setReplication_eq_ok.mp set
      simp [Branch.blockCount]
    have hset : editor.store.Recounted
        (editor.store.setBranch owner branch.property (.blockList new)) :=
      ⟨[], Store.accounts_setBranch_of_eq held hcount⟩
    exact hset.announce ⟨fun _ => rfl, fun _ => rfl⟩ fun _ => rfl

/-! ## All edits -/

/-- What is enacted is told of. -/
theorem Enacts.recounted {ν : Handle → Option Node} (hmirrors : editor.Mirrors ν)
    (htidy : editor.store.Tidy) {edit : Edit} (hedit : edit.WellFormed)
    (h : editor.Enacts edit next) : editor.store.Recounted next.store := by
  have hgrammar := hmirrors.distinct
  cases edit with
  | insert branch slot node =>
    exact h.recounted_insert hgrammar htidy (hedit node (by simp [Edit.nodes]))
  | remove => exact h.recounted_remove htidy
  | replace branch slot before after =>
    exact h.recounted_replace hgrammar htidy (hedit after (by simp [Edit.nodes]))
  | move => exact h.recounted_move
  | assign branch before after =>
    exact h.recounted_assign hmirrors htidy (hedit after (by simp [Edit.nodes]))
  | unassign => exact h.recounted_unassign htidy
  | insertBlock branch block content =>
    exact h.recounted_insertBlock hgrammar htidy
      fun node hnode => hedit node (by simp [Edit.nodes, hnode])
  | removeBlock => exact h.recounted_removeBlock htidy
  | splitBlock => exact h.recounted_splitBlock
  | mergeBlocks => exact h.recounted_mergeBlocks
  | moveBlock => exact h.recounted_moveBlock
  | changeReplication => exact h.recounted_changeReplication
  | setValue =>
    -- The states stay as they are.
    cases h
    exact Recounted.announce (.silent (.refl editor.store)) ⟨fun _ => rfl, fun _ => rfl⟩
      fun _ => rfl

end Editor

end TreeEditor
