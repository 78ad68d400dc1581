import TreeEditor.Blocks

/-!
# Branches

A branch stands for a property with children: it holds the handles of the states of the children in
the order of the document. A branch for an optional child always holds one handle, that of the
slot, whether the child is assigned or not. Every rule about the positions of an edit is a rule
about branches; the same edit is then made on the property of the document.

A branch does not say of which property it is: the state that keeps it has it under the name.
-/

namespace TreeEditor

/-- The states of the children of a property. -/
inductive Branch where
  | placeholder (child : Handle)
  | optional (child : Handle)
  | list (children : List Handle)
  | blockList (blocks : List (Block Node Handle))

namespace Branch

/-- The kind of property that a branch stands for. -/
def kind : Branch → PropertyKind
  | placeholder _ => .placeholder
  | optional _ => .optional
  | list _ => .list
  | blockList _ => .blockList

/-- The handles with their slots in the order of the document. -/
def slots : Branch → List (Slot × Handle)
  | placeholder child => [(.placeholder, child)]
  | optional child => [(.optional, child)]
  | list children => listSlots children
  | blockList blocks => blockSlots blocks

/-- The handles in the order of the document. -/
def children (branch : Branch) : List Handle := branch.slots.map Prod.snd

/-- The number of handles. -/
def count : Branch → Nat
  | placeholder _ | optional _ => 1
  | list children => children.length
  | blockList blocks => Blocks.memberCount blocks

/-- The handle in a slot. -/
def childAt? : Branch → Slot → Option Handle
  | placeholder child, .placeholder => some child
  | optional child, .optional => some child
  | list children, .list position => children[position]?
  | blockList blocks, .member block position => do (← blocks[block]?).members[position]?
  | _, _ => none

/-- The refusal of a slot that does not fit the branch of a property. -/
def unfit (branch : Branch) (property : String) (slot : Slot) : Refusal :=
  .unfitSlot slot branch.kind property

/-- A slot holds a handle. -/
def checkSlot (property : String) (slot : Slot) (branch : Branch) : Except Refusal Unit :=
  match branch, slot with
  | placeholder _, .placeholder => .ok ()
  | optional _, .optional => .ok ()
  | list children, .list position => checkExisting position children.length
  | blockList blocks, .member block position => Blocks.checkMember block position blocks
  | branch, slot => .error (branch.unfit property slot)

/-- The handle in a slot and the branch with another one there. -/
def replaceChild (property : String) (slot : Slot) (child : Handle) (branch : Branch) :
    Except Refusal (Handle × Branch) :=
  match branch, slot with
  | placeholder old, .placeholder => .ok (old, placeholder child)
  | optional old, .optional => .ok (old, optional child)
  | list children, .list position => do
    return (← itemAt position children, list (children.set position child))
  | blockList blocks, .member block position => do
    let content ← Blocks.blockAt block blocks
    return (← itemAt position content.members,
      blockList (Blocks.setMembers block (content.members.set position child) blocks))
  | branch, slot => .error (branch.unfit property slot)

/-- A child can be inserted in a slot. -/
def checkInsert (property : String) (slot : Slot) (branch : Branch) : Except Refusal Unit :=
  match branch, slot with
  | list children, .list position => checkInsertion position children.length
  | blockList blocks, .member block position => Blocks.checkInsertMember block position blocks
  | branch, slot => .error (branch.unfit property slot)

/-- A child can be removed from a slot. -/
def checkRemove (property : String) (slot : Slot) (branch : Branch) : Except Refusal Unit :=
  match branch, slot with
  | list children, .list position => checkExisting position children.length
  | blockList blocks, .member block position => Blocks.checkMember block position blocks
  | branch, slot => .error (branch.unfit property slot)

/-- A slot is in a block that has a single member. -/
def isOnlyMember (slot : Slot) (branch : Branch) : Bool :=
  match branch, slot with
  | blockList blocks, .member block _ => (blocks[block]?.map (·.members.length)) = some 1
  | _, _ => false

/-- The position that the child in a slot arrives at when it is moved by a distance. -/
def checkMove (property : String) (slot : Slot) (delta : Int) (branch : Branch) :
    Except Refusal Nat :=
  match branch, slot with
  | list children, .list position => moveTarget position delta children.length
  | blockList blocks, .member block position => Blocks.checkMoveMember block position delta blocks
  | branch, slot => .error (branch.unfit property slot)

/-- The branch with a child inserted in a slot. -/
def insert (property : String) (slot : Slot) (child : Handle) (branch : Branch) :
    Except Refusal Branch :=
  match branch, slot with
  | list children, .list position => return list (← insertItem position child children)
  | blockList blocks, .member block position =>
    return blockList (← Blocks.insertMember block position child blocks)
  | branch, slot => .error (branch.unfit property slot)

/-- The child in a slot and the branch without it. -/
def remove (property : String) (slot : Slot) (branch : Branch) :
    Except Refusal (Handle × Branch) :=
  match branch, slot with
  | list children, .list position => do
    let (child, children) ← removeItem position children
    return (child, list children)
  | blockList blocks, .member block position => do
    let (child, blocks) ← Blocks.removeMember block position blocks
    return (child, blockList blocks)
  | branch, slot => .error (branch.unfit property slot)

/-- The position that the child in a slot was moved to, and the branch with the child there. -/
def move (property : String) (slot : Slot) (delta : Int) (branch : Branch) :
    Except Refusal (Nat × Branch) :=
  match branch, slot with
  | list children, .list position => do
    let (target, children) ← moveItem position delta children
    return (target, list children)
  | blockList blocks, .member block position => do
    let (target, blocks) ← Blocks.moveMember block position delta blocks
    return (target, blockList blocks)
  | branch, slot => .error (branch.unfit property slot)

/-- The blocks of a branch for a list of blocks. -/
def blocks (property : String) : Branch → Except Refusal (List (Block Node Handle))
  | blockList blocks => .ok blocks
  | _ => .error (.notBlockList property)

end Branch

end TreeEditor
