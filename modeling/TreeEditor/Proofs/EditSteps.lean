import TreeEditor.Proofs.RemovalEvents
import TreeEditor.Proofs.Planning
import TreeEditor.Proofs.ReadingBack

/-!
# How edits are made

`Editor.Enacts` says for each edit what the document and the states go through when it is made: what
is read of the states, which steps take them on, and what is announced last. An edit that is made is
enacted (`Editor.enacts_of_apply`), so what holds of edits is shown from the steps, and no other
place looks at the order in which conditions are checked. The conditions themselves are those of
`Editor.conditions`; only what the states must have for the steps is kept here.
-/

namespace TreeEditor

namespace Store

variable {σ σ' : Store} {o : Handle} {name : String}

/-- A branch that is changed was there. -/
theorem modifyBranch_eq_ok {change : Branch → Except Refusal Branch} :
    σ.modifyBranch o name change = .ok σ' ↔ ∃ old new, σ.branch? o name = some old ∧
      change old = .ok new ∧ σ' = σ.setBranch o name new := by
  unfold modifyBranch
  simp only [bind_eq_ok, orRefuse_eq_ok, branch_eq_ok, pure_eq_ok, Except.ok.injEq]
  exact ⟨fun ⟨old, hold, new, hnew, heq⟩ => ⟨old, new, hold, hnew, heq.symm⟩,
    fun ⟨old, new, hold, hnew, heq⟩ => ⟨old, hold, new, hnew, heq.symm⟩⟩

/-- Blocks that are changed were there. -/
theorem modifyBlocks_eq_ok
    {change : List (Block Node Handle) → Except Refusal (List (Block Node Handle))} :
    σ.modifyBlocks o name change = .ok σ' ↔ ∃ blocks blocks',
      σ.branch? o name = some (.blockList blocks) ∧ change blocks = .ok blocks' ∧
        σ' = σ.setBranch o name (.blockList blocks') := by
  unfold modifyBlocks
  rw [modifyBranch_eq_ok]
  constructor
  · rintro ⟨old, new, hold, hnew, heq⟩
    obtain ⟨blocks, hblocks, hnew⟩ := bind_eq_ok.mp hnew
    obtain ⟨blocks', hchange, hlast⟩ := bind_eq_ok.mp hnew
    cases hlast
    cases old with
    | blockList found =>
      cases hblocks
      exact ⟨blocks, blocks', hold, hchange, heq⟩
    | _ => cases hblocks
  · rintro ⟨blocks, blocks', hold, hchange, heq⟩
    exact ⟨_, .blockList blocks', hold, by simp [Branch.blocks, hchange], heq⟩

end Store

namespace Editor

variable {editor next : Editor}

/-- The state of an optional slot is the child of its branch. -/
theorem optionalChild_eq_ok {owner child : Handle} {property : String} :
    editor.optionalChild owner property = .ok child ↔
      editor.store.branch? owner property = some (.optional child) := by
  rw [optionalChild, bind_eq_ok]
  simp only [Store.branch_eq_ok]
  constructor
  · rintro ⟨found, hfound, hread⟩
    cases found with
    | optional child =>
      cases hread
      exact hfound
    | _ => cases hread
  · exact fun hfound => ⟨_, hfound, rfl⟩

/-- What an edit makes of an editor, step by step. -/
inductive Enacts (editor : Editor) : Edit → Editor → Prop where
  /-- A state is made, put among its siblings and settled. -/
  | insert {branch : BranchPath} {slot : Slot} {node document : Node} {owner c : Handle}
    {old new : Branch} {σ₁ σ₂ σ₃ : Store} (owns : editor.readyOwner branch.owner = .ok owner)
    (changed : editor.changeDocument branch.owner (Node.insertChild branch.property slot node) =
      .ok document)
    (allocated : editor.store.allocate (.within owner branch.property slot) = (c, σ₁))
    (held : σ₁.branch? owner branch.property = some old)
    (put : old.insert branch.property slot c = .ok new)
    (reindexed : (σ₁.setBranch owner branch.property new).reindex owner branch.property = .ok σ₂)
    (settled : σ₂.settle (.within owner branch.property slot) c
      (some (editor.grammar.growth node)) = .ok σ₃) :
    Enacts editor (.insert branch slot node) { editor with
      document, store := σ₃.announce (.inserted (.within owner branch.property slot) c) }
  /-- A state is taken out of its branch and removed, and its siblings are given their places. -/
  | remove {branch : BranchPath} {slot : Slot} {node document : Node} {owner c : Handle}
    {old new : Branch} {σ₁ σ₂ : Store} (owns : editor.readyOwner branch.owner = .ok owner)
    (held : editor.store.branch? owner branch.property = some old)
    (changed : editor.changeDocument branch.owner (Node.removeChild branch.property slot) =
      .ok document)
    (taken : old.remove branch.property slot = .ok (c, new))
    (destroyed : (editor.store.setBranch owner branch.property new).destroy c = .ok σ₁)
    (reindexed : σ₁.reindex owner branch.property = .ok σ₂) :
    Enacts editor (.remove branch slot node) { editor with
      document, store := σ₂.announce (.removed (.within owner branch.property slot) c) }
  /-- A state is removed and another one made in its place. -/
  | replace {branch : BranchPath} {slot : Slot} {before after document : Node}
    {owner c d : Handle} {old : State} {states held new : Branch} {replaced : Handle}
    {σ₁ σ₂ σ₃ : Store} (owns : editor.readyOwner branch.owner = .ok owner)
    (found : editor.store.branch? owner branch.property = some states)
    (current : states.childAt? slot = some c) (state : editor.store.get? c = some old)
    (changed : editor.changeDocument (branch.child slot) (fun _ => .ok after) = .ok document)
    (destroyed : editor.store.destroy c = .ok σ₁)
    (allocated : σ₁.allocate old.place = (d, σ₂))
    (kept : σ₂.branch? owner branch.property = some held)
    (put : held.replaceChild branch.property slot d = .ok (replaced, new))
    (settled : ((σ₂.setBranch owner branch.property new).enroll old.place d).settle old.place d
      (some (editor.grammar.growth after)) = .ok σ₃) :
    Enacts editor (.replace branch slot before after) { editor with
      document, store := σ₃.announce (.replaced old.place c d) }
  /-- The states of a branch are moved about in it. -/
  | move {branch : BranchPath} {slot : Slot} {delta : Int} {document : Node} {owner c : Handle}
    {target : Nat} {old new : Branch} {σ₁ : Store}
    (owns : editor.readyOwner branch.owner = .ok owner)
    (held : editor.store.branch? owner branch.property = some old)
    (moved : old.move branch.property slot delta = .ok (target, new))
    (changed : editor.changeDocument branch.owner (Node.moveChild branch.property slot delta) =
      .ok document)
    (reindexed : (editor.store.setBranch owner branch.property new).reindex owner
      branch.property = .ok σ₁)
    (arrived : new.childAt? (slot.moveTo target) = some c) :
    Enacts editor (.move branch slot delta) { editor with
      document
      store := σ₁.announce (.moved (.within owner branch.property slot)
        (.within owner branch.property (slot.moveTo target)) c) }
  /-- A vacant state gets its branches and is ready. -/
  | assign {branch : BranchPath} {before : Option Node} {after document : Node}
    {owner c : Handle} {state : State} {place : Place} {σ₁ : Store}
    (owns : editor.readyOwner branch.owner = .ok owner)
    (held : editor.store.branch? owner branch.property = some (.optional c))
    (found : editor.store.get? c = some state) (vacant : state.stage = .vacant)
    (changed : editor.changeDocument branch.owner
      (Node.setOptional branch.property true (some after)) = .ok document)
    (grown : editor.grammar.growth after c editor.store = .ok σ₁)
    (stands : σ₁.place? c = some place) :
    Enacts editor (.assign branch before after) { editor with
      document, store := (σ₁.setStage c .ready).announce (.assigned place c) }
  /-- A ready state loses its branches and is vacant. -/
  | unassign {branch : BranchPath} {item document : Node} {restore : Option Node}
    {owner c : Handle} {state : State} {place : Place} {σ₁ : Store}
    (owns : editor.readyOwner branch.owner = .ok owner)
    (held : editor.store.branch? owner branch.property = some (.optional c))
    (found : editor.store.get? c = some state) (ready : state.stage = .ready)
    (changed : editor.changeDocument branch.owner
      (Node.setOptional branch.property false restore) = .ok document)
    (cleared : editor.store.clear c = .ok σ₁) (stands : σ₁.place? c = some place) :
    Enacts editor (.unassign branch item restore) { editor with
      document, store := (σ₁.setStage c .vacant).announce (.unassigned place c) }
  /-- A block without members is put among the others, and then its members are made. -/
  | insertBlock {branch : BranchPath} {block : Nat} {content : Block Node Node} {document : Node}
    {owner : Handle} {old new : List (Block Node Handle)} {σ₁ σ₂ : Store}
    (owns : editor.readyOwner branch.owner = .ok owner)
    (changed : editor.changeDocument branch.owner
      (Node.modifyBlocks branch.property (Blocks.insertBlock block content)) = .ok document)
    (held : editor.store.branch? owner branch.property = some (.blockList old))
    (put : Blocks.insertBlock block ⟨content.header, []⟩ old = .ok new)
    (reindexed : (editor.store.setBranch owner branch.property (.blockList new)).reindex owner
      branch.property = .ok σ₁)
    (grown : editor.growNodes owner branch.property block content.members.zipIdx
      (σ₁.announce (.blockCreated ⟨owner, branch.property⟩ block)) = .ok σ₂) :
    Enacts editor (.insertBlock branch block content) { editor with
      document, store := σ₂.announce (.blockInserted ⟨owner, branch.property⟩ block) }
  /-- A block is taken out, and then its members are removed. -/
  | removeBlock {branch : BranchPath} {block : Nat} {content : Block Node Node} {document : Node}
    {owner : Handle} {old new : List (Block Node Handle)} {removed : Block Node Handle}
    {σ₁ σ₂ : Store} (owns : editor.readyOwner branch.owner = .ok owner)
    (held : editor.store.branch? owner branch.property = some (.blockList old))
    (taken : Blocks.removeBlock block old = .ok (removed, new))
    (changed : editor.changeDocument branch.owner (Node.modifyBlocks branch.property
      fun blocks => return (← Blocks.removeBlock block blocks).2) = .ok document)
    (reindexed : (editor.store.setBranch owner branch.property (.blockList new)).reindex owner
      branch.property = .ok σ₁)
    (destroyed : destroyMembers owner branch.property block removed.members.zipIdx σ₁ = .ok σ₂) :
    Enacts editor (.removeBlock branch block content) { editor with
      document, store := σ₂.announce (.blockDestroyed ⟨owner, branch.property⟩ block) }
  /-- The states of a block are shared between two. -/
  | splitBlock {branch : BranchPath} {block position : Nat} {header : Header Node}
    {document : Node} {owner : Handle} {old new : List (Block Node Handle)} {σ₁ : Store}
    (owns : editor.readyOwner branch.owner = .ok owner)
    (held : editor.store.branch? owner branch.property = some (.blockList old))
    (split : Blocks.split block position header old = .ok new)
    (changed : editor.changeDocument branch.owner
      (Node.modifyBlocks branch.property (Blocks.split block position header)) = .ok document)
    (reindexed : (editor.store.setBranch owner branch.property (.blockList new)).reindex owner
      branch.property = .ok σ₁) :
    Enacts editor (.splitBlock branch block position header) { editor with
      document
      store := (σ₁.announce (.blockCreated ⟨owner, branch.property⟩ (block + 1))).announce
        (.blockSplit ⟨owner, branch.property⟩ block position) }
  /-- The states of two blocks are put into one. -/
  | mergeBlocks {branch : BranchPath} {block position : Nat} {header : Header Node}
    {document : Node} {owner : Handle} {old new : List (Block Node Handle)} {σ₁ : Store}
    (owns : editor.readyOwner branch.owner = .ok owner)
    (held : editor.store.branch? owner branch.property = some (.blockList old))
    (merged : Blocks.merge block old = .ok (position, new))
    (changed : editor.changeDocument branch.owner (Node.modifyBlocks branch.property
      fun blocks => return (← Blocks.merge block blocks).2) = .ok document)
    (reindexed : (editor.store.setBranch owner branch.property (.blockList new)).reindex owner
      branch.property = .ok σ₁) :
    Enacts editor (.mergeBlocks branch block position header) { editor with
      document
      store := (σ₁.announce (.blockDestroyed ⟨owner, branch.property⟩ (block + 1))).announce
        (.blocksMerged ⟨owner, branch.property⟩ block position) }
  /-- The blocks of a branch are moved about in it. -/
  | moveBlock {branch : BranchPath} {block target : Nat} {delta : Int} {document : Node}
    {owner : Handle} {old new : List (Block Node Handle)} {σ₁ : Store}
    (owns : editor.readyOwner branch.owner = .ok owner)
    (held : editor.store.branch? owner branch.property = some (.blockList old))
    (moved : Blocks.moveBlock block delta old = .ok (target, new))
    (changed : editor.changeDocument branch.owner (Node.modifyBlocks branch.property
      fun blocks => return (← Blocks.moveBlock block delta blocks).2) = .ok document)
    (reindexed : (editor.store.setBranch owner branch.property (.blockList new)).reindex owner
      branch.property = .ok σ₁) :
    Enacts editor (.moveBlock branch block delta) { editor with
      document, store := σ₁.announce (.blockMoved ⟨owner, branch.property⟩ block target) }
  /-- A block gets another header, and all states stay where they are. -/
  | changeReplication {branch : BranchPath} {block : Nat} {before after : Replication}
    {document : Node} {owner : Handle} {old new : List (Block Node Handle)}
    (owns : editor.readyOwner branch.owner = .ok owner)
    (held : editor.store.branch? owner branch.property = some (.blockList old))
    (set : Blocks.setReplication block after old = .ok new)
    (changed : editor.changeDocument branch.owner
      (Node.modifyBlocks branch.property (Blocks.setReplication block after)) = .ok document) :
    Enacts editor (.changeReplication branch block before after) { editor with
      document
      store := (editor.store.setBranch owner branch.property (.blockList new)).announce
        (.replicationChanged ⟨owner, branch.property⟩ block after) }
  /-- All states stay as they are. -/
  | setValue {path : Path} {property : String} {before after : Leaf} {document : Node}
    {owner : Handle} (owns : editor.readyOwner path = .ok owner)
    (changed : editor.changeDocument path (Node.setValue property after) = .ok document) :
    Enacts editor (.setValue path property before after) { editor with
      document, store := editor.store.announce (.valueChanged owner property) }

section

variable {branch : BranchPath} {slot : Slot}

/-- An insertion that is made is enacted. -/
theorem enacts_of_applyInsert {node : Node} (h : editor.applyInsert branch slot node = .ok next) :
    editor.Enacts (.insert branch slot node) next := by
  unfold applyInsert at h
  obtain ⟨owner, howner, h⟩ := bind_eq_ok.mp h
  obtain ⟨_, -, h⟩ := bind_eq_ok.mp h
  obtain ⟨_, -, h⟩ := bind_eq_ok.mp h
  obtain ⟨_, -, h⟩ := bind_eq_ok.mp h
  obtain ⟨document, hchange, h⟩ := bind_eq_ok.mp h
  dsimp only at h
  cases hallocate : editor.store.allocate (.within owner branch.property slot) with
  | mk c σ₁ =>
    rw [hallocate] at h
    obtain ⟨σ₂, hmodify, h⟩ := bind_eq_ok.mp h
    obtain ⟨σ₃, hreindex, h⟩ := bind_eq_ok.mp h
    rw [growthAt_insert hchange, ok_bind] at h
    obtain ⟨σ₄, hsettle, h⟩ := bind_eq_ok.mp h
    cases h
    obtain ⟨old, new, hheld, hput, rfl⟩ := Store.modifyBranch_eq_ok.mp hmodify
    exact .insert howner hchange hallocate hheld hput hreindex hsettle

/-- A removal that is made is enacted. -/
theorem enacts_of_applyRemove {node : Node} (h : editor.applyRemove branch slot node = .ok next) :
    editor.Enacts (.remove branch slot node) next := by
  unfold applyRemove at h
  obtain ⟨owner, howner, h⟩ := bind_eq_ok.mp h
  obtain ⟨states, hstates, h⟩ := bind_eq_ok.mp h
  obtain ⟨_, -, h⟩ := bind_eq_ok.mp h
  obtain ⟨_, -, h⟩ := bind_eq_ok.mp h
  obtain ⟨_, -, h⟩ := bind_eq_ok.mp h
  obtain ⟨document, hchange, h⟩ := bind_eq_ok.mp h
  obtain ⟨⟨handle, left⟩, htake, h⟩ := bind_eq_ok.mp h
  obtain ⟨σ₁, hdestroy, h⟩ := bind_eq_ok.mp h
  obtain ⟨σ₂, hreindex, h⟩ := bind_eq_ok.mp h
  cases h
  exact .remove howner (Store.branch_eq_ok.mp (orRefuse_eq_ok.mp hstates)) hchange
    (orRefuse_eq_ok.mp htake) hdestroy hreindex

/-- A replacement that is made is enacted. -/
theorem enacts_of_applyReplace {before after : Node}
    (h : editor.applyReplace branch slot before after = .ok next) :
    editor.Enacts (.replace branch slot before after) next := by
  unfold applyReplace at h
  -- The steps are taken off in the order in which they are made; a check only has to have passed.
  obtain ⟨owner, howner, h⟩ := bind_eq_ok.mp h
  obtain ⟨states, hstates, h⟩ := bind_eq_ok.mp h
  obtain ⟨_, -, h⟩ := bind_eq_ok.mp h
  obtain ⟨current, hcurrent, h⟩ := bind_eq_ok.mp h
  obtain ⟨old, hexpect, h⟩ := bind_eq_ok.mp h
  dsimp only at h
  split at h
  · cases h
  obtain ⟨_, -, h⟩ := bind_eq_ok.mp h
  obtain ⟨_, -, h⟩ := bind_eq_ok.mp h
  obtain ⟨document, hchange, h⟩ := bind_eq_ok.mp h
  obtain ⟨σ₁, hdestroy, h⟩ := bind_eq_ok.mp h
  cases hallocate : σ₁.allocate old.place with
  | mk d σ₂ =>
    rw [hallocate] at h
    obtain ⟨σ₃, hmodify, h⟩ := bind_eq_ok.mp h
    rw [growthAt_replace hchange, ok_bind] at h
    obtain ⟨σ₄, hsettle, h⟩ := bind_eq_ok.mp h
    cases h
    obtain ⟨held, new, hkept, hreplace, rfl⟩ := Store.modifyBranch_eq_ok.mp hmodify
    obtain ⟨⟨replaced, new⟩, hput, hlast⟩ := bind_eq_ok.mp hreplace
    cases hlast
    exact .replace howner (Store.branch_eq_ok.mp (orRefuse_eq_ok.mp hstates))
      (orElseRefuse_eq_ok.mp hcurrent) (Store.expect_eq_ok.mp hexpect) hchange hdestroy hallocate
      hkept hput hsettle

/-- A move that is made is enacted. -/
theorem enacts_of_applyMove {delta : Int} (h : editor.applyMove branch slot delta = .ok next) :
    editor.Enacts (.move branch slot delta) next := by
  unfold applyMove at h
  obtain ⟨owner, howner, h⟩ := bind_eq_ok.mp h
  obtain ⟨states, hstates, h⟩ := bind_eq_ok.mp h
  obtain ⟨⟨target, moved⟩, hmove, h⟩ := bind_eq_ok.mp h
  obtain ⟨document, hchange, h⟩ := bind_eq_ok.mp h
  obtain ⟨σ₁, hreindex, h⟩ := bind_eq_ok.mp h
  obtain ⟨handle, harrived, h⟩ := bind_eq_ok.mp h
  cases h
  exact .move howner (Store.branch_eq_ok.mp (orRefuse_eq_ok.mp hstates))
    (orRefuse_eq_ok.mp hmove) hchange hreindex (orElseRefuse_eq_ok.mp harrived)

/-- A state that has just entered a stage stands where it stood. -/
theorem place?_of_expect_setStage {σ : Store} {c : Handle} {stage : Stage} {last : State}
    (hlast : (σ.setStage c stage).expect c = .ok last) : σ.place? c = some last.place := by
  rw [← Store.place?_setStage c c stage]
  exact Store.place?_eq_some.mpr ⟨last, Store.expect_eq_ok.mp hlast, rfl⟩

/-- An assignment that is made is enacted. -/
theorem enacts_of_applyAssign {before : Option Node} {after : Node}
    (h : editor.applyAssign branch before after = .ok next) :
    editor.Enacts (.assign branch before after) next := by
  unfold applyAssign at h
  obtain ⟨owner, howner, h⟩ := bind_eq_ok.mp h
  obtain ⟨handle, hoptional, h⟩ := bind_eq_ok.mp h
  obtain ⟨state, hexpect, h⟩ := bind_eq_ok.mp h
  dsimp only at h
  split at h
  · cases h
  rename_i hstage
  obtain ⟨_, -, h⟩ := bind_eq_ok.mp h
  obtain ⟨⟨_, retained⟩, -, h⟩ := bind_eq_ok.mp h
  dsimp only at h
  split at h
  · cases h
  obtain ⟨_, -, h⟩ := bind_eq_ok.mp h
  obtain ⟨document, hchange, h⟩ := bind_eq_ok.mp h
  rw [growthAt_assign hchange, ok_bind] at h
  obtain ⟨σ₁, hgrow, h⟩ := bind_eq_ok.mp h
  obtain ⟨σ₂, henter, h⟩ := bind_eq_ok.mp h
  obtain ⟨last, hlast, h⟩ := bind_eq_ok.mp h
  cases h
  obtain ⟨-, rfl⟩ := Store.enter_eq_ok.mp henter
  exact .assign howner (optionalChild_eq_ok.mp (orRefuse_eq_ok.mp hoptional))
    (Store.expect_eq_ok.mp hexpect) (not_not.mp hstage) hchange hgrow
    (place?_of_expect_setStage hlast)

/-- An unassignment that is made is enacted. -/
theorem enacts_of_applyUnassign {item : Node} {restore : Option Node}
    (h : editor.applyUnassign branch item restore = .ok next) :
    editor.Enacts (.unassign branch item restore) next := by
  unfold applyUnassign at h
  obtain ⟨owner, howner, h⟩ := bind_eq_ok.mp h
  obtain ⟨handle, hoptional, h⟩ := bind_eq_ok.mp h
  obtain ⟨state, hexpect, h⟩ := bind_eq_ok.mp h
  dsimp only at h
  split at h
  · cases h
  rename_i hstage
  obtain ⟨_, -, h⟩ := bind_eq_ok.mp h
  obtain ⟨document, hchange, h⟩ := bind_eq_ok.mp h
  obtain ⟨σ₁, hclear, h⟩ := bind_eq_ok.mp h
  obtain ⟨σ₂, henter, h⟩ := bind_eq_ok.mp h
  obtain ⟨last, hlast, h⟩ := bind_eq_ok.mp h
  cases h
  obtain ⟨-, rfl⟩ := Store.enter_eq_ok.mp henter
  exact .unassign howner (optionalChild_eq_ok.mp (orRefuse_eq_ok.mp hoptional))
    (Store.expect_eq_ok.mp hexpect) (not_not.mp hstage) hchange hclear
    (place?_of_expect_setStage hlast)

/-- An insertion of a block that is made is enacted. -/
theorem enacts_of_applyInsertBlock {block : Nat} {content : Block Node Node}
    (h : editor.applyInsertBlock branch block content = .ok next) :
    editor.Enacts (.insertBlock branch block content) next := by
  unfold applyInsertBlock at h
  obtain ⟨owner, howner, h⟩ := bind_eq_ok.mp h
  obtain ⟨_, -, h⟩ := bind_eq_ok.mp h
  obtain ⟨_, -, h⟩ := bind_eq_ok.mp h
  dsimp only at h
  split at h
  · obtain ⟨_, -, h⟩ := bind_eq_ok.mp h
    cases h
  obtain ⟨_, -, h⟩ := bind_eq_ok.mp h
  obtain ⟨document, hchange, h⟩ := bind_eq_ok.mp h
  obtain ⟨σ₁, hmodify, h⟩ := bind_eq_ok.mp h
  obtain ⟨σ₂, hreindex, h⟩ := bind_eq_ok.mp h
  obtain ⟨σ₃, hgrow, h⟩ := bind_eq_ok.mp h
  cases h
  obtain ⟨old, new, hheld, hput, rfl⟩ := Store.modifyBlocks_eq_ok.mp hmodify
  rw [growMembers_eq hchange] at hgrow
  exact .insertBlock howner hchange hheld hput hreindex hgrow

/-- A removal of a block that is made is enacted. -/
theorem enacts_of_applyRemoveBlock {block : Nat} {content : Block Node Node}
    (h : editor.applyRemoveBlock branch block content = .ok next) :
    editor.Enacts (.removeBlock branch block content) next := by
  unfold applyRemoveBlock at h
  obtain ⟨owner, howner, h⟩ := bind_eq_ok.mp h
  obtain ⟨states, hstates, h⟩ := bind_eq_ok.mp h
  obtain ⟨⟨removed, left⟩, htake, h⟩ := bind_eq_ok.mp h
  obtain ⟨_, -, h⟩ := bind_eq_ok.mp h
  dsimp only at h
  split at h
  · cases h
  obtain ⟨document, hchange, h⟩ := bind_eq_ok.mp h
  obtain ⟨σ₁, hreindex, h⟩ := bind_eq_ok.mp h
  obtain ⟨σ₂, hdestroy, h⟩ := bind_eq_ok.mp h
  cases h
  exact .removeBlock howner (blocks_eq_ok.mp (orRefuse_eq_ok.mp hstates))
    (orRefuse_eq_ok.mp htake) hchange hreindex hdestroy

/-- A split of a block that is made is enacted. -/
theorem enacts_of_applySplitBlock {block position : Nat} {header : Header Node}
    (h : editor.applySplitBlock branch block position header = .ok next) :
    editor.Enacts (.splitBlock branch block position header) next := by
  unfold applySplitBlock at h
  obtain ⟨owner, howner, h⟩ := bind_eq_ok.mp h
  obtain ⟨states, hstates, h⟩ := bind_eq_ok.mp h
  obtain ⟨split, hsplit, h⟩ := bind_eq_ok.mp h
  obtain ⟨document, hchange, h⟩ := bind_eq_ok.mp h
  obtain ⟨σ₁, hreindex, h⟩ := bind_eq_ok.mp h
  cases h
  exact .splitBlock howner (blocks_eq_ok.mp (orRefuse_eq_ok.mp hstates))
    (orRefuse_eq_ok.mp hsplit) hchange hreindex

/-- Blocks that are joined are so step by step. -/
theorem enacts_of_applyMergeBlocks {block position : Nat} {header : Header Node}
    (h : editor.applyMergeBlocks branch block position header = .ok next) :
    editor.Enacts (.mergeBlocks branch block position header) next := by
  unfold applyMergeBlocks at h
  obtain ⟨owner, howner, h⟩ := bind_eq_ok.mp h
  obtain ⟨states, hstates, h⟩ := bind_eq_ok.mp h
  obtain ⟨⟨length, merged⟩, hmerge, h⟩ := bind_eq_ok.mp h
  dsimp only at h
  split at h
  · cases h
  rename_i hlength
  obtain ⟨_, -, h⟩ := bind_eq_ok.mp h
  split at h
  · cases h
  obtain ⟨document, hchange, h⟩ := bind_eq_ok.mp h
  obtain ⟨σ₁, hreindex, h⟩ := bind_eq_ok.mp h
  cases h
  -- The length of the first block is the position that the edit recorded.
  obtain rfl := not_not.mp hlength
  exact .mergeBlocks howner (blocks_eq_ok.mp (orRefuse_eq_ok.mp hstates))
    (orRefuse_eq_ok.mp hmerge) hchange hreindex

/-- A move of a block that is made is enacted. -/
theorem enacts_of_applyMoveBlock {block : Nat} {delta : Int}
    (h : editor.applyMoveBlock branch block delta = .ok next) :
    editor.Enacts (.moveBlock branch block delta) next := by
  unfold applyMoveBlock at h
  obtain ⟨owner, howner, h⟩ := bind_eq_ok.mp h
  obtain ⟨states, hstates, h⟩ := bind_eq_ok.mp h
  obtain ⟨⟨target, moved⟩, hmove, h⟩ := bind_eq_ok.mp h
  obtain ⟨document, hchange, h⟩ := bind_eq_ok.mp h
  obtain ⟨σ₁, hreindex, h⟩ := bind_eq_ok.mp h
  cases h
  exact .moveBlock howner (blocks_eq_ok.mp (orRefuse_eq_ok.mp hstates))
    (orRefuse_eq_ok.mp hmove) hchange hreindex

/-- A change of replication that is made is enacted. -/
theorem enacts_of_applyChangeReplication {block : Nat} {before after : Replication}
    (h : editor.applyChangeReplication branch block before after = .ok next) :
    editor.Enacts (.changeReplication branch block before after) next := by
  unfold applyChangeReplication at h
  obtain ⟨owner, howner, h⟩ := bind_eq_ok.mp h
  obtain ⟨states, hstates, h⟩ := bind_eq_ok.mp h
  obtain ⟨changed, hset, h⟩ := bind_eq_ok.mp h
  obtain ⟨_, -, h⟩ := bind_eq_ok.mp h
  dsimp only at h
  split at h
  · cases h
  obtain ⟨document, hchange, h⟩ := bind_eq_ok.mp h
  cases h
  exact .changeReplication howner (blocks_eq_ok.mp (orRefuse_eq_ok.mp hstates))
    (orRefuse_eq_ok.mp hset) hchange

/-- A change of a value that is made is enacted. -/
theorem enacts_of_applySetValue {path : Path} {property : String} {before after : Leaf}
    (h : editor.applySetValue path property before after = .ok next) :
    editor.Enacts (.setValue path property before after) next := by
  unfold applySetValue at h
  obtain ⟨owner, howner, h⟩ := bind_eq_ok.mp h
  obtain ⟨_, -, h⟩ := bind_eq_ok.mp h
  obtain ⟨_, -, h⟩ := bind_eq_ok.mp h
  dsimp only at h
  split at h
  · cases h
  obtain ⟨document, hchange, h⟩ := bind_eq_ok.mp h
  cases h
  exact .setValue howner hchange

end

/-- An edit that is made is enacted. -/
theorem enacts_of_apply {edit : Edit} (h : editor.apply edit = .ok next) :
    editor.Enacts edit next := by
  cases edit with
  | insert => exact enacts_of_applyInsert h
  | remove => exact enacts_of_applyRemove h
  | replace => exact enacts_of_applyReplace h
  | move => exact enacts_of_applyMove h
  | assign => exact enacts_of_applyAssign h
  | unassign => exact enacts_of_applyUnassign h
  | insertBlock => exact enacts_of_applyInsertBlock h
  | removeBlock => exact enacts_of_applyRemoveBlock h
  | splitBlock => exact enacts_of_applySplitBlock h
  | mergeBlocks => exact enacts_of_applyMergeBlocks h
  | moveBlock => exact enacts_of_applyMoveBlock h
  | changeReplication => exact enacts_of_applyChangeReplication h
  | setValue => exact enacts_of_applySetValue h

end Editor

end TreeEditor
