import TreeEditor.Blocks
import TreeEditor.Node.Shape

/-!
# Changing a property

The edits of a document, each as a change of one property of one node. A change of a list or of a
list of blocks keeps the bounds of the sequence.
-/

namespace TreeEditor.Node

/-- A node with the leaf of a value property replaced. -/
def setValue (name : String) (leaf : Leaf) (node : Node) : Except Refusal Node := do
  let _ ← refuseShape (node.value name)
  return node.set name (.value leaf)

/-- A node with an optional child assigned or not, and its item replaced. -/
def setOptional (name : String) (assigned : Bool) (item : Option Node) (node : Node) :
    Except Refusal Node := do
  let _ ← refuseShape (node.optional name)
  return node.set name (.optional assigned item)

/-- A node with a list changed. -/
def modifyList (name : String) (change : List Node → Except Refusal (List Node)) (node : Node) :
    Except Refusal Node := do
  let nodes ← refuseShape (node.list name)
  return node.set name (.list (← change nodes))

/-- A node with a list of blocks changed. -/
def modifyBlocks (name : String)
    (change : List (Block Node Node) → Except Refusal (List (Block Node Node))) (node : Node) :
    Except Refusal Node := do
  let blocks ← refuseShape (node.blockList name)
  return node.set name (.blockList (← change blocks))

/-- A node with a child inserted in a slot of a list or block. -/
def insertChild (name : String) (slot : Slot) (child : Node) (node : Node) :
    Except Refusal Node :=
  match slot with
  | .list position => node.modifyList name (insertItem position child)
  | .member block position => node.modifyBlocks name (Blocks.insertMember block position child)
  | slot => .error (.noNodeAt ⟨name, slot⟩)

/-- A node without the child in a slot of a list or block. -/
def removeChild (name : String) (slot : Slot) (node : Node) : Except Refusal Node :=
  match slot with
  | .list position => node.modifyList name fun nodes => return (← removeItem position nodes).2
  | .member block position =>
    node.modifyBlocks name fun blocks => return (← Blocks.removeMember block position blocks).2
  | slot => .error (.noNodeAt ⟨name, slot⟩)

/-- A node with the child in a slot of a list or block moved by a distance. -/
def moveChild (name : String) (slot : Slot) (delta : Int) (node : Node) : Except Refusal Node :=
  match slot with
  | .list position => node.modifyList name fun nodes => return (← moveItem position delta nodes).2
  | .member block position =>
    node.modifyBlocks name fun blocks =>
      return (← Blocks.moveMember block position delta blocks).2
  | slot => .error (.noNodeAt ⟨name, slot⟩)

end TreeEditor.Node
