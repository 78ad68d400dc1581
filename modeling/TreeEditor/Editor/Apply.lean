import TreeEditor.Document.Change
import TreeEditor.Editor.Basic

/-!
# Making edits

`Editor.apply` makes one edit. All conditions are checked first, against the document and the
states as they are; then the document is changed, then the states in the same way, and the changes
are announced. States are grown for what the document has by then. A refused edit changes nothing.
-/

namespace TreeEditor

/-- A store with the branch of a state changed. -/
def Store.modifyBranch (owner : Handle) (property : String)
    (change : Branch → Except Refusal Branch) (store : Store) : Except Failure Store := do
  let branch ← orRefuse (store.branch owner property)
  return store.setBranch owner property (← orRefuse (change branch))

/-- A store with the blocks of a state changed. -/
def Store.modifyBlocks (owner : Handle) (property : String)
    (change : List (Block Node Handle) → Except Refusal (List (Block Node Handle)))
    (store : Store) : Except Failure Store :=
  store.modifyBranch owner property fun branch => do
    return .blockList (← change (← branch.blocks property))

namespace Editor

/-! ## Conditions -/

/-- The state at a path, which must be ready. -/
def readyOwner (editor : Editor) (path : Path) : Except Failure Handle := do
  let handle ← orRefuse (editor.resolve path)
  let state ← editor.store.expect handle
  if state.stage = .ready then return handle
  else throw (.refused (.notReady handle path state.stage))

/-- A node may stand in a property and is valid. -/
def checkChild (editor : Editor) (branch : BranchPath) (node : Node) : Except Refusal Unit := do
  let owner ← editor.nodeAt branch.owner
  refuseShape (editor.grammar.accepts owner.kind branch.property node.kind)
  refuseShape (editor.grammar.validate node)

/-- The node at a path is the one that an edit recorded. -/
def checkNode (editor : Editor) (path : Path) (expected : Node) : Except Refusal Unit := do
  if (← editor.nodeAt path).same expected then return else throw (.nodeDiffers path)

/-- The state in the slot of an optional child. -/
def optionalChild (editor : Editor) (owner : Handle) (property : String) :
    Except Refusal Handle := do
  match ← editor.store.branch owner property with
  | .optional child => return child
  | other => throw (other.unfit property .optional)

/-- A block keeps a member when the slot of another one is emptied. -/
def checkNotLast (branch : Branch) (slot : Slot) : Except Refusal Unit :=
  match slot with
  | .member block position =>
    if branch.isOnlyMember slot then .error (.lastMember block position) else .ok ()
  | _ => .ok ()

/-! ## Edits of one child -/

/-- A document with one of its nodes changed, where the states allow the change. -/
def changeDocument (editor : Editor) (path : Path) (change : Node → Except Refusal Node) :
    Except Failure Node :=
  orBreak (editor.document.modifyAt change path)

/-- How the state at a path of a changed document is grown: for the node that is found there. -/
def growthAt (editor : Editor) (document : Node) (path : Path) : Except Failure Growth := do
  return editor.grammar.growth (← orRefuse (document.descend path))

/-- Puts a node into a list or block. -/
def applyInsert (editor : Editor) (branch : BranchPath) (slot : Slot) (node : Node) :
    Except Failure Editor := do
  let owner ← editor.readyOwner branch.owner
  let property := branch.property
  orRefuse ((← orRefuse (editor.store.branch owner property)).checkInsert property slot)
  orRefuse (editor.checkChild branch node)
  let document ← editor.changeDocument branch.owner (Node.insertChild property slot node)
  let place := Place.within owner property slot
  let (handle, store) := editor.store.allocate place
  let store ← store.modifyBranch owner property (Branch.insert property slot handle)
  -- The siblings are given their new places before the new state is announced.
  let store ← store.reindex owner property
  let growth ← editor.growthAt document (branch.child slot)
  let store ← store.settle place handle (some growth)
  return { editor with document, store := store.announce (.inserted place handle) }

/-- Takes a node out of a list or block. -/
def applyRemove (editor : Editor) (branch : BranchPath) (slot : Slot) (node : Node) :
    Except Failure Editor := do
  let owner ← editor.readyOwner branch.owner
  let property := branch.property
  let states ← orRefuse (editor.store.branch owner property)
  orRefuse (states.checkRemove property slot)
  orRefuse (checkNotLast states slot)
  orRefuse (editor.checkNode (branch.child slot) node)
  let document ← editor.changeDocument branch.owner (Node.removeChild property slot)
  let (handle, states) ← orRefuse (states.remove property slot)
  -- The siblings keep their earlier places until the removed states are gone.
  let store ← (editor.store.setBranch owner property states).destroy handle
  let store ← store.reindex owner property
  return { editor with
    document, store := store.announce (.removed (.within owner property slot) handle) }

/-- Puts a node in the place of another one. The slot gets a new state. -/
def applyReplace (editor : Editor) (branch : BranchPath) (slot : Slot) (before after : Node) :
    Except Failure Editor := do
  let owner ← editor.readyOwner branch.owner
  let property := branch.property
  let states ← orRefuse (editor.store.branch owner property)
  orRefuse (states.checkSlot property slot)
  let current ← orElseRefuse (states.childAt? slot) (states.unfit property slot)
  let old ← editor.store.expect current
  if old.stage = .vacant then
    throw (.refused (.replaceVacant (.branch branch)))
  orRefuse (editor.checkNode (branch.child slot) before)
  orRefuse (editor.checkChild branch after)
  let document ← editor.changeDocument (branch.child slot) fun _ => .ok after
  let place := old.place
  -- The new state is made once the old one is gone, and so gets its cell.
  let store ← editor.store.destroy current
  let (handle, store) := store.allocate place
  let store ← store.modifyBranch owner property fun states => do
    return (← states.replaceChild property slot handle).2
  let growth ← editor.growthAt document (branch.child slot)
  let store ← (store.enroll place handle).settle place handle (some growth)
  return { editor with document, store := store.announce (.replaced place current handle) }

/-- Moves a node inside its list or block. -/
def applyMove (editor : Editor) (branch : BranchPath) (slot : Slot) (delta : Int) :
    Except Failure Editor := do
  let owner ← editor.readyOwner branch.owner
  let property := branch.property
  let states ← orRefuse (editor.store.branch owner property)
  let (target, moved) ← orRefuse (states.move property slot delta)
  let document ← editor.changeDocument branch.owner (Node.moveChild property slot delta)
  let store ← (editor.store.setBranch owner property moved).reindex owner property
  let arrived := slot.moveTo target
  let handle ← orElseRefuse (moved.childAt? arrived) (moved.unfit property arrived)
  return { editor with
    document
    store := store.announce
      (.moved (.within owner property slot) (.within owner property arrived) handle) }

/-! ## Edits of an optional child -/

/-- Assigns an optional child. Its state stays. -/
def applyAssign (editor : Editor) (branch : BranchPath) (before : Option Node) (after : Node) :
    Except Failure Editor := do
  let owner ← editor.readyOwner branch.owner
  let property := branch.property
  let handle ← orRefuse (editor.optionalChild owner property)
  let state ← editor.store.expect handle
  if state.stage ≠ .vacant then
    throw (.refused (.alreadyAssigned (.branch branch)))
  let node ← orRefuse (editor.nodeAt branch.owner)
  let (_, retained) ← orRefuse (refuseShape (node.optional property))
  if !sameItem retained before then
    throw (.refused (.retainedDiffers branch))
  orRefuse (editor.checkChild branch after)
  let document ← editor.changeDocument branch.owner (Node.setOptional property true (some after))
  let grow ← editor.growthAt document (branch.child .optional)
  let store ← (← grow handle editor.store).enter handle .ready
  let state ← store.expect handle
  return { editor with document, store := store.announce (.assigned state.place handle) }

/-- Unassigns an optional child. Its state stays and what is under it goes. -/
def applyUnassign (editor : Editor) (branch : BranchPath) (item : Node) (restore : Option Node) :
    Except Failure Editor := do
  let owner ← editor.readyOwner branch.owner
  let property := branch.property
  let handle ← orRefuse (editor.optionalChild owner property)
  let state ← editor.store.expect handle
  if state.stage ≠ .ready then
    throw (.refused (.notAssigned (.branch branch)))
  orRefuse (editor.checkNode (branch.child .optional) item)
  let document ← editor.changeDocument branch.owner (Node.setOptional property false restore)
  let store ← (← editor.store.clear handle).enter handle .vacant
  let state ← store.expect handle
  return { editor with document, store := store.announce (.unassigned state.place handle) }

/-! ## Edits of blocks -/

/-- Adds the states for the positions of a new block that the store has without members. -/
def growMembers (editor : Editor) (document : Node) (branch : BranchPath) (owner : Handle)
    (block : Nat) : List Nat → Store → Except Failure Store
  | [], store => .ok store
  | position :: rest, store => do
    let slot := Slot.member block position
    let place := Place.within owner branch.property slot
    let (handle, store) := store.allocate place
    let store ← store.modifyBlocks owner branch.property
      (Blocks.insertMember block position handle)
    let growth ← editor.growthAt document (branch.child slot)
    let store ← (store.enroll place handle).settle place handle (some growth)
    editor.growMembers document branch owner block rest (store.announce (.inserted place handle))

/-- Inserts a block. -/
def applyInsertBlock (editor : Editor) (branch : BranchPath) (block : Nat)
    (content : Block Node Node) : Except Failure Editor := do
  let owner ← editor.readyOwner branch.owner
  let property := branch.property
  orRefuse (Blocks.checkInsertBlock block (← orRefuse (editor.store.blocks owner property)))
  if content.members.isEmpty then
    let node ← orRefuse (editor.nodeAt branch.owner)
    throw (.refused (.shape (.emptyBlock node.kind property block)))
  orRefuse (content.members.forM (editor.checkChild branch))
  let document ← editor.changeDocument branch.owner
    (Node.modifyBlocks property (Blocks.insertBlock block content))
  let site : BranchRef := ⟨owner, property⟩
  -- The block of states starts out empty; its members are announced one by one.
  let store ← editor.store.modifyBlocks owner property
    (Blocks.insertBlock block ⟨content.header, []⟩)
  let store ← store.reindex owner property
  let store := store.announce (.blockCreated site block)
  let store ← editor.growMembers document branch owner block (List.range content.members.length)
    store
  return { editor with document, store := store.announce (.blockInserted site block) }

/-- Removes the states of the members of a block that is gone. -/
def destroyMembers (owner : Handle) (property : String) (block : Nat) :
    List (Handle × Nat) → Store → Except Failure Store
  | [], store => .ok store
  | (handle, position) :: rest, store => do
    let store ← store.destroy handle
    destroyMembers owner property block rest
      (store.announce (.removed (.within owner property (.member block position)) handle))

/-- Removes a block. -/
def applyRemoveBlock (editor : Editor) (branch : BranchPath) (block : Nat)
    (content : Block Node Node) : Except Failure Editor := do
  let owner ← editor.readyOwner branch.owner
  let property := branch.property
  let states ← orRefuse (editor.store.blocks owner property)
  let (removed, states) ← orRefuse (Blocks.removeBlock block states)
  let current ← editor.blockAt branch block
  if !current.same content then
    throw (.refused (.blockDiffers block branch))
  let document ← editor.changeDocument branch.owner
    (Node.modifyBlocks property fun blocks => return (← Blocks.removeBlock block blocks).2)
  let store ← (editor.store.setBranch owner property (.blockList states)).reindex owner property
  let store ← destroyMembers owner property block removed.members.zipIdx store
  return { editor with
    document, store := store.announce (.blockDestroyed ⟨owner, property⟩ block) }

/-- Splits a block. -/
def applySplitBlock (editor : Editor) (branch : BranchPath) (block position : Nat)
    (header : Header Node) : Except Failure Editor := do
  let owner ← editor.readyOwner branch.owner
  let property := branch.property
  let states ← orRefuse (editor.store.blocks owner property)
  let split ← orRefuse (Blocks.split block position header states)
  let document ← editor.changeDocument branch.owner
    (Node.modifyBlocks property (Blocks.split block position header))
  let store ← (editor.store.setBranch owner property (.blockList split)).reindex owner property
  let site : BranchRef := ⟨owner, property⟩
  return { editor with
    document
    store := (store.announce (.blockCreated site (block + 1))).announce
      (.blockSplit site block position) }

/-- Joins a block with the next one. -/
def applyMergeBlocks (editor : Editor) (branch : BranchPath) (block position : Nat)
    (header : Header Node) : Except Failure Editor := do
  let owner ← editor.readyOwner branch.owner
  let property := branch.property
  let states ← orRefuse (editor.store.blocks owner property)
  let (length, merged) ← orRefuse (Blocks.merge block states)
  if length ≠ position then
    throw (.refused (.lengthDiffers block branch length position))
  let next ← editor.blockAt branch (block + 1)
  if !next.header.same header then
    throw (.refused (.blockDiffers (block + 1) branch))
  let document ← editor.changeDocument branch.owner
    (Node.modifyBlocks property fun blocks => return (← Blocks.merge block blocks).2)
  let store ← (editor.store.setBranch owner property (.blockList merged)).reindex owner property
  let site : BranchRef := ⟨owner, property⟩
  return { editor with
    document
    store := (store.announce (.blockDestroyed site (block + 1))).announce
      (.blocksMerged site block position) }

/-- Moves a block. -/
def applyMoveBlock (editor : Editor) (branch : BranchPath) (block : Nat) (delta : Int) :
    Except Failure Editor := do
  let owner ← editor.readyOwner branch.owner
  let property := branch.property
  let states ← orRefuse (editor.store.blocks owner property)
  let (target, moved) ← orRefuse (Blocks.moveBlock block delta states)
  let document ← editor.changeDocument branch.owner
    (Node.modifyBlocks property fun blocks => return (← Blocks.moveBlock block delta blocks).2)
  let store ← (editor.store.setBranch owner property (.blockList moved)).reindex owner property
  return { editor with
    document, store := store.announce (.blockMoved ⟨owner, property⟩ block target) }

/-- Changes the replication of a block. -/
def applyChangeReplication (editor : Editor) (branch : BranchPath) (block : Nat)
    (before after : Replication) : Except Failure Editor := do
  let owner ← editor.readyOwner branch.owner
  let property := branch.property
  let states ← orRefuse (editor.store.blocks owner property)
  let changed ← orRefuse (Blocks.setReplication block after states)
  let current ← editor.blockAt branch block
  if current.header.replication ≠ before then
    throw (.refused (.replicationDiffers block branch before))
  let document ← editor.changeDocument branch.owner
    (Node.modifyBlocks property (Blocks.setReplication block after))
  let store := editor.store.setBranch owner property (.blockList changed)
  return { editor with
    document
    store := store.announce (.replicationChanged ⟨owner, property⟩ block after) }

/-! ## Edits of a value -/

/-- Changes a leaf. -/
def applySetValue (editor : Editor) (owner : Path) (property : String) (before after : Leaf) :
    Except Failure Editor := do
  let handle ← editor.readyOwner owner
  let node ← orRefuse (editor.nodeAt owner)
  let leaf ← orRefuse (refuseShape (node.value property))
  if leaf ≠ before then
    throw (.refused (.valueDiffers property owner before))
  let document ← editor.changeDocument owner (Node.setValue property after)
  return { editor with
    document, store := editor.store.announce (.valueChanged handle property) }

/-- Makes an edit. -/
def apply (editor : Editor) : Edit → Except Failure Editor
  | .insert branch slot node => editor.applyInsert branch slot node
  | .remove branch slot node => editor.applyRemove branch slot node
  | .replace branch slot before after => editor.applyReplace branch slot before after
  | .move branch slot delta => editor.applyMove branch slot delta
  | .assign branch before after => editor.applyAssign branch before after
  | .unassign branch item restore => editor.applyUnassign branch item restore
  | .insertBlock branch block content => editor.applyInsertBlock branch block content
  | .removeBlock branch block content => editor.applyRemoveBlock branch block content
  | .splitBlock branch block position header => editor.applySplitBlock branch block position header
  | .mergeBlocks branch block position header =>
    editor.applyMergeBlocks branch block position header
  | .moveBlock branch block delta => editor.applyMoveBlock branch block delta
  | .changeReplication branch block before after =>
    editor.applyChangeReplication branch block before after
  | .setValue owner property before after => editor.applySetValue owner property before after

end Editor

end TreeEditor
