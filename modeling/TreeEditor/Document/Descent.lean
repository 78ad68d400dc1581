import TreeEditor.Node.Shape
import TreeEditor.Refusal

/-!
# Following a path

`Node.descend` finds the node at a path. `Node.openAt` opens it for writing, by a walk of its own
that goes from each node to an opened child, and `Node.modifyAt` changes the node there and leaves
the rest of the document as it is, the order of properties included.
-/

namespace TreeEditor

namespace Node

/-- The child that a step leads to. -/
def step (node : Node) (step : Step) : Except Refusal Node :=
  match step.slot with
  | .placeholder => refuseShape (node.child step.property)
  | .optional => do
    match ← refuseShape (node.optional step.property) with
    | (true, some item) => return item
    | _ => throw (.noNodeAt step)
  | .list position => do
    match (← refuseShape (node.list step.property))[position]? with
    | some child => return child
    | none => throw (.noNodeAt step)
  | .member block position => do
    match (← refuseShape (node.blockList step.property))[block]? with
    | none => throw (.noNodeAt step)
    | some content =>
      match content.members[position]? with
      | some child => return child
      | none => throw (.noNodeAt step)

/-- The node at a path. -/
def descend (node : Node) : Path → Except Refusal Node
  | [] => .ok node
  | step :: rest => do (← node.step step).descend rest

/-- The child that a step leads to, opened for writing. -/
def openStep (node : Node) (step : Step) : Except Refusal (Focus Node) :=
  match step.slot with
  | .placeholder => refuseShape (node.openChild step.property)
  | .optional => do
    let optional ← refuseShape (node.openOptional step.property)
    let (assigned, item) := optional.here
    if !assigned then
      throw (.noNodeAt step)
    match item with
    | some item => return ⟨item, fun new => optional.fill (assigned, some new)⟩
    | none => throw (.noNodeAt step)
  | .list position => do
    let nodes ← refuseShape (node.openList step.property)
    match nodes.here[position]? with
    | some child => return ⟨child, fun new => nodes.fill (nodes.here.set position new)⟩
    | none => throw (.noNodeAt step)
  | .member block position => do
    let blocks ← refuseShape (node.openBlockList step.property)
    match blocks.here[block]? with
    | none => throw (.noNodeAt step)
    | some content =>
      match content.members[position]? with
      | some child =>
        return ⟨child, fun new => blocks.fill (blocks.here.set block
          { content with members := content.members.set position new })⟩
      | none => throw (.noNodeAt step)

/-- The node at a path, opened for writing. -/
def openAt (node : Node) : Path → Except Refusal (Focus Node)
  | [] => .ok ⟨node, id⟩
  | step :: rest => do
    let child ← node.openStep step
    return child.inside (← child.here.openAt rest)

/-- A document with the node at a path changed. -/
def modifyAt (change : Node → Except Refusal Node) (path : Path) (node : Node) :
    Except Refusal Node := do
  let place ← node.openAt path
  return place.fill (← change place.here)

end Node

end TreeEditor
