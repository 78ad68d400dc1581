import TreeEditor.Sequence

/-!
# Lists of blocks

The edits of a list of blocks and the conditions on them. Like those of a sequence they look
neither at the members nor at the headers, so they act alike on the blocks of a document and on the
blocks of states.
-/

namespace TreeEditor.Blocks

variable {α μ : Type}

/-- The block at a position. -/
def blockAt (block : Nat) (blocks : List (Block α μ)) : Except Refusal (Block α μ) :=
  itemAt block blocks

/-- The number of members in all blocks together. -/
def memberCount (blocks : List (Block α μ)) : Nat :=
  blocks.foldr (fun block count => block.members.length + count) 0

/-! ## Conditions -/

/-- A block can be inserted at a position. -/
def checkInsertBlock (block : Nat) (blocks : List (Block α μ)) : Except Refusal Unit :=
  checkInsertion block blocks.length

/-- The position that a block arrives at when it is moved by a distance. -/
def checkMoveBlock (block : Nat) (delta : Int) (blocks : List (Block α μ)) : Except Refusal Nat :=
  moveTarget block delta blocks.length

/-- A member can be inserted at a position of a block. -/
def checkInsertMember (block position : Nat) (blocks : List (Block α μ)) :
    Except Refusal Unit := do
  checkInsertion position (← blockAt block blocks).members.length

/-- A block has a member at a position. -/
def checkMember (block position : Nat) (blocks : List (Block α μ)) : Except Refusal Unit := do
  checkExisting position (← blockAt block blocks).members.length

/-- The position that a member arrives at when it is moved by a distance inside its block. -/
def checkMoveMember (block position : Nat) (delta : Int) (blocks : List (Block α μ)) :
    Except Refusal Nat := do
  moveTarget position delta (← blockAt block blocks).members.length

/-- A block can be split at a position: both parts get a member. -/
def checkSplit (block position : Nat) (blocks : List (Block α μ)) : Except Refusal Unit := do
  let count := (← blockAt block blocks).members.length
  if 0 < position ∧ position < count then return
  else throw (.badSplit block position count)

/-- Another block follows a block; the number of members of the first one, after which those of the
other one will come. -/
def checkMerge (block : Nat) (blocks : List (Block α μ)) : Except Refusal Nat := do
  let first ← blockAt block blocks
  if block + 1 < blocks.length then return first.members.length
  else throw (.badMerge block)

/-! ## Edits -/

/-- A list of blocks with the members of one block replaced. -/
def setMembers (block : Nat) (members : List μ) (blocks : List (Block α μ)) :
    List (Block α μ) :=
  blocks.modify block fun content => { content with members }

/-- A list of blocks with a block inserted. -/
def insertBlock (block : Nat) (content : Block α μ) (blocks : List (Block α μ)) :
    Except Refusal (List (Block α μ)) :=
  insertItem block content blocks

/-- A block and the list without it. -/
def removeBlock (block : Nat) (blocks : List (Block α μ)) :
    Except Refusal (Block α μ × List (Block α μ)) :=
  removeItem block blocks

/-- The position that a block was moved to, and the list with the block there. -/
def moveBlock (block : Nat) (delta : Int) (blocks : List (Block α μ)) :
    Except Refusal (Nat × List (Block α μ)) :=
  moveItem block delta blocks

/-- A list of blocks with a member inserted into one of them. -/
def insertMember (block position : Nat) (member : μ) (blocks : List (Block α μ)) :
    Except Refusal (List (Block α μ)) := do
  let content ← blockAt block blocks
  return setMembers block (← insertItem position member content.members) blocks

/-- A member and the list of blocks without it. -/
def removeMember (block position : Nat) (blocks : List (Block α μ)) :
    Except Refusal (μ × List (Block α μ)) := do
  let content ← blockAt block blocks
  let (member, members) ← removeItem position content.members
  return (member, setMembers block members blocks)

/-- The position that a member was moved to inside its block, and the list of blocks with the member
there. -/
def moveMember (block position : Nat) (delta : Int) (blocks : List (Block α μ)) :
    Except Refusal (Nat × List (Block α μ)) := do
  let content ← blockAt block blocks
  let (target, members) ← moveItem position delta content.members
  return (target, setMembers block members blocks)

/-- A list of blocks in which the members of a block from a position on are a block of their own
under a given header. -/
def split (block position : Nat) (header : Header α) (blocks : List (Block α μ)) :
    Except Refusal (List (Block α μ)) := do
  checkSplit block position blocks
  let content ← blockAt block blocks
  return (setMembers block (content.members.take position) blocks).insertIdx (block + 1)
    ⟨header, content.members.drop position⟩

/-- A list of blocks in which a block has taken over the members of the next one, and the position
of the first of them. -/
def merge (block : Nat) (blocks : List (Block α μ)) :
    Except Refusal (Nat × List (Block α μ)) := do
  let position ← checkMerge block blocks
  let content ← blockAt block blocks
  let next ← blockAt (block + 1) blocks
  return (position,
    setMembers block (content.members ++ next.members) (blocks.eraseIdx (block + 1)))

/-- A list of blocks with the replication of one of them set. -/
def setReplication (block : Nat) (replication : Replication) (blocks : List (Block α μ)) :
    Except Refusal (List (Block α μ)) := do
  let _ ← blockAt block blocks
  return blocks.modify block fun content =>
    { content with header := { content.header with replication } }

end TreeEditor.Blocks
