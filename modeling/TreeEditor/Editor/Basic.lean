import TreeEditor.Document.Descent
import TreeEditor.Grammar.Validity
import TreeEditor.History
import TreeEditor.Settings
import TreeEditor.Store.Growth
import TreeEditor.Store.Removal

/-!
# Editors

An editor holds a document and the states that stand for it, the history of the edits made, and the
grammar that the document keeps to. This module makes an editor and answers questions: a state can
be found by its handle, by its place and by the path of its node.
-/

namespace TreeEditor

/-- A document under edit. -/
structure Editor where
  grammar : Grammar
  document : Node
  store : Store
  root : Handle
  history : History
  settings : Settings

namespace Editor

/-- The editor of a document that is valid under a grammar. -/
def ofDocument (document : Node) (grammar : Grammar) (settings : Settings) :
    Except Failure Editor := do
  orRefuse (refuseShape (grammar.validate document))
  let (root, store) ← Store.empty.create .root (some (grammar.growth document))
  return {
    grammar, document, store, root, settings
    history := .withLimit settings.maxUndoLevels }

/-- The number of states. -/
def stateCount (editor : Editor) : Nat := editor.store.arena.size

/-! ## States -/

/-- The path of a state with fewer than so many generations above it. -/
def pathWithin (editor : Editor) : (generations : Nat) → Handle → Except Failure Path
  | 0, handle => .error (.broken (.endless handle))
  | generations + 1, handle => do
    match (← orRefuse (editor.store.live handle)).place with
    | .root => return []
    | .within parent property slot =>
      return (← editor.pathWithin generations parent).child property slot

/-- The path of a state: the slots from the root down to it. -/
def pathOf (editor : Editor) (handle : Handle) : Except Failure Path :=
  editor.pathWithin editor.store.generations handle

/-- The state that the steps of a path lead to from a given one. -/
def resolveFrom (editor : Editor) (whole : Path) : Handle → Path → Except Refusal Handle
  | handle, [] => .ok handle
  | handle, step :: rest => do
    match (← editor.store.branch handle step.property).childAt? step.slot with
    | some child => editor.resolveFrom whole child rest
    | none => throw (.noStateAt whole)

/-- The state at a path. -/
def resolve (editor : Editor) (path : Path) : Except Refusal Handle :=
  editor.resolveFrom path editor.root path

/-- The state that is registered for a place. -/
def stateAt? (editor : Editor) (place : Place) : Option Handle := editor.store.stateAt? place

/-- The place of a slot that exists. -/
def placeOf (editor : Editor) (parent : Handle) (property : String) (slot : Slot) :
    Except Refusal Place := do
  let branch ← editor.store.branch parent property
  let place := Place.within parent property slot
  (branch.checkSlot property slot).mapError (.badPlace place)
  return place

/-- The place that a path ends in. -/
def placeAt (editor : Editor) (path : Path) : Except Refusal Place :=
  match path.split? with
  | none => .ok .root
  | some (owner, step) => do editor.placeOf (← editor.resolve owner) step.property step.slot

/-! ## Nodes -/

/-- The node at a path. -/
def nodeAt (editor : Editor) (path : Path) : Except Refusal Node := editor.document.descend path

/-- The node of a state. -/
def nodeOf (editor : Editor) (handle : Handle) : Except Failure Node := do
  orRefuse (editor.nodeAt (← editor.pathOf handle))

/-- The node of a state, if it has one. -/
def node? (editor : Editor) (handle : Handle) : Option Node := (editor.nodeOf handle).toOption

/-- The blocks that the document has at an address. -/
def blocksAt (editor : Editor) (branch : BranchPath) : Except Refusal (List (Block Node Node)) := do
  refuseShape ((← editor.nodeAt branch.owner).blockList branch.property)

/-- A block that the states have, as the document has it. -/
def blockAt (editor : Editor) (branch : BranchPath) (block : Nat) :
    Except Failure (Block Node Node) := do
  let blocks ← orRefuse (editor.blocksAt branch)
  orBreak (Blocks.blockAt block blocks)

end Editor

end TreeEditor
