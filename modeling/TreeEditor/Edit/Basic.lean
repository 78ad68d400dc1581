import TreeEditor.Node.Equality
import TreeEditor.Path.Basic

/-!
# Edits

An edit records one change of a document together with all that is needed to take it back: what is
removed or replaced is part of the record. Every edit has an inverse of the same form, so undoing
is making edits too, and a history is made of edits alone.
-/

namespace TreeEditor

/-- The change of a document. -/
inductive Edit where
  /-- Puts a node into a list or an existing block. -/
  | insert (branch : BranchPath) (slot : Slot) (node : Node)
  /-- Takes a node out of a list, or out of a block that keeps other members. -/
  | remove (branch : BranchPath) (slot : Slot) (node : Node)
  | replace (branch : BranchPath) (slot : Slot) (before after : Node)
  /-- Moves a node by a distance inside its list or block. -/
  | move (branch : BranchPath) (slot : Slot) (delta : Int)
  /-- Assigns an optional child; `before` is the item that was retained. -/
  | assign (branch : BranchPath) (before : Option Node) (after : Node)
  /-- Unassigns an optional child; `restore` is the item that is retained. -/
  | unassign (branch : BranchPath) (item : Node) (restore : Option Node)
  | insertBlock (branch : BranchPath) (block : Nat) (content : Block Node Node)
  | removeBlock (branch : BranchPath) (block : Nat) (content : Block Node Node)
  /-- Makes the members from a position on a block of their own. -/
  | splitBlock (branch : BranchPath) (block position : Nat) (header : Header Node)
  /-- Joins a block of `position` members with the next one, whose header is recorded. -/
  | mergeBlocks (branch : BranchPath) (block position : Nat) (header : Header Node)
  | moveBlock (branch : BranchPath) (block : Nat) (delta : Int)
  | changeReplication (branch : BranchPath) (block : Nat) (before after : Replication)
  | setValue (owner : Path) (property : String) (before after : Leaf)

namespace Edit

/-- The name of what an edit does. -/
def name : Edit → String
  | insert .. => "insert"
  | remove .. => "remove"
  | replace .. => "replace"
  | move .. => "move"
  | assign .. => "assign"
  | unassign .. => "unassign"
  | insertBlock .. => "insert_block"
  | removeBlock .. => "remove_block"
  | splitBlock .. => "split_block"
  | mergeBlocks .. => "merge_blocks"
  | moveBlock .. => "move_block"
  | changeReplication .. => "change_replication"
  | setValue .. => "set_value"

/-- The property of the document that an edit changes. -/
def site : Edit → BranchPath
  | insert branch .. | remove branch .. | replace branch .. | move branch .. | assign branch ..
  | unassign branch .. | insertBlock branch .. | removeBlock branch .. | splitBlock branch ..
  | mergeBlocks branch .. | moveBlock branch .. | changeReplication branch .. => branch
  | setValue owner property _ _ => ⟨owner, property⟩

/-- The position at a distance from another one, but not before the first. -/
def shifted (position : Nat) (delta : Int) : Nat := (max 0 (signed position + delta)).toNat

/-- The slot at a distance from another one in its list or block. -/
def shiftedSlot (slot : Slot) (delta : Int) : Slot :=
  match slot.position? with
  | some position => slot.moveTo (shifted position delta)
  | none => slot

/-- The edit that takes an edit back. -/
def invert : Edit → Edit
  | insert branch slot node => remove branch slot node
  | remove branch slot node => insert branch slot node
  | replace branch slot before after => replace branch slot after before
  | move branch slot delta => move branch (shiftedSlot slot delta) (-delta)
  | assign branch before after => unassign branch after before
  | unassign branch item restore => assign branch restore item
  | insertBlock branch block content => removeBlock branch block content
  | removeBlock branch block content => insertBlock branch block content
  | splitBlock branch block position header => mergeBlocks branch block position header
  | mergeBlocks branch block position header => splitBlock branch block position header
  | moveBlock branch block delta => moveBlock branch (shifted block delta) (-delta)
  | changeReplication branch block before after => changeReplication branch block after before
  | setValue owner property before after => setValue owner property after before

/-- Two edits are the same when they agree in all they record, nodes being the same whatever the
order of their properties. -/
def same : Edit → Edit → Bool
  | insert b s n, insert b' s' n' => b = b' && s = s' && n.same n'
  | remove b s n, remove b' s' n' => b = b' && s = s' && n.same n'
  | replace b s x y, replace b' s' x' y' => b = b' && s = s' && x.same x' && y.same y'
  | move b s d, move b' s' d' => b = b' && s = s' && d = d'
  | assign b x y, assign b' x' y' => b = b' && sameItem x x' && y.same y'
  | unassign b x y, unassign b' x' y' => b = b' && x.same x' && sameItem y y'
  | insertBlock b k c, insertBlock b' k' c' => b = b' && k = k' && c.same c'
  | removeBlock b k c, removeBlock b' k' c' => b = b' && k = k' && c.same c'
  | splitBlock b k p h, splitBlock b' k' p' h' => b = b' && k = k' && p = p' && h.same h'
  | mergeBlocks b k p h, mergeBlocks b' k' p' h' => b = b' && k = k' && p = p' && h.same h'
  | moveBlock b k d, moveBlock b' k' d' => b = b' && k = k' && d = d'
  | changeReplication b k x y, changeReplication b' k' x' y' =>
    b = b' && k = k' && x = x' && y = y'
  | setValue o p x y, setValue o' p' x' y' => o = o' && p = p' && x = x' && y = y'
  | _, _ => false

end Edit

end TreeEditor
