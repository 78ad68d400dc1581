import TreeEditor.Editor.Apply
import TreeEditor.Editor.Audit

/-!
# Requests

What an editor can be asked to do. A command changes the document in one way; it names states by
their handles and is planned as an edit, which names them by their paths. Further requests undo and
redo edits, collect them into batches, and make a group of edits that was built elsewhere.

The answer to a request comes together with the editor as the request leaves it, also when it is
refused: taking back the first edits of a group that fails makes new states for the nodes that come
back.
-/

namespace TreeEditor

/-- A change of the document in terms of states. -/
inductive Command where
  | insert (insertion : Insertion)
  | remove (place : Place)
  | replace (place : Place) (node : Node)
  | move (place : Place) (delta : Int)
  /-- Assigns an optional child: a given node, or else the one that is retained. -/
  | assign (place : Place) (node : Option Node)
  | unassign (place : Place)
  | insertBlock (branch : BranchRef) (block : Nat) (content : Block Node Node)
  | removeBlock (branch : BranchRef) (block : Nat)
  | splitBlock (branch : BranchRef) (block position : Nat)
  | mergeBlocks (branch : BranchRef) (block : Nat)
  | moveBlock (branch : BranchRef) (block : Nat) (delta : Int)
  | changeReplication (branch : BranchRef) (block : Nat) (replication : Replication)
  | setValue (state : Handle) (property : String) (value : Leaf)

/-- What an editor can be asked to do. -/
inductive Request where
  | command (command : Command)
  | undo
  | redo
  | beginBatch (description : Option String)
  | endBatch
  | abortBatch
  /-- Names the state to be announced again once the open batch is committed, undone or redone. -/
  | setBatchRefresh (state : Handle)
  | execute (group : Group)

/-- The answer to a request that is not refused. -/
inductive Reply where
  | done
  /-- The place of an inserted node. -/
  | landed (place : Place)
  /-- Whether there was anything to do. -/
  | whether (acted : Bool)
  /-- The number of edits taken back. -/
  | count (edits : Nat)

/-- An answer together with the editor that it leaves behind. -/
abbrev Outcome (α : Type) := Except Failure α × Editor

namespace Editor

/-! ## Planning commands -/

/-- The parent, the property and the slot of a place. -/
def splitPlace (place : Place) : Except Refusal (Handle × String × Slot) :=
  match place with
  | .root => .error .rootHasNoSlot
  | .within parent property slot => .ok (parent, property, slot)

/-- The parent and the property of the place of an optional child. -/
def splitOptional (place : Place) : Except Refusal (Handle × String) := do
  match ← splitPlace place with
  | (parent, property, .optional) => return (parent, property)
  | _ => throw (.notOptional place)

/-- The address of a property of a state. -/
def branchPathOf (editor : Editor) (owner : Handle) (property : String) :
    Except Failure BranchPath :=
  return ⟨← editor.pathOf owner, property⟩

/-- The address and the blocks of a property of a state. -/
def blocksOf (editor : Editor) (branch : BranchRef) :
    Except Failure (BranchPath × List (Block Node Handle)) := do
  let path ← editor.branchPathOf branch.owner branch.property
  return (path, ← orRefuse (editor.store.blocks branch.owner branch.property))

/-- The edit that makes an insertion. -/
def planInsert (branch : BranchPath) (target : Target) (node : Node) : Edit :=
  match target with
  | .list position => .insert branch (.list position) node
  | .member block position => .insert branch (.member block position) node
  | .newBlock block header => .insertBlock branch block ⟨header, [node]⟩

/-- The edit that removes the node of a place; the only member of a block goes with its block. -/
def planRemove (editor : Editor) (place : Place) : Except Failure Edit := do
  let (owner, property, slot) ← orRefuse (splitPlace place)
  let branch ← editor.branchPathOf owner property
  let states ← orRefuse (editor.store.branch owner property)
  orRefuse (states.checkRemove property slot)
  match states.isOnlyMember slot, slot with
  | true, .member block _ => return .removeBlock branch block (← editor.blockAt branch block)
  | _, _ => return .remove branch slot (← orRefuse (editor.nodeAt (branch.child slot)))

/-- The edit that replaces the node of a place. -/
def planReplace (editor : Editor) (place : Place) (node : Node) : Except Failure Edit := do
  let (owner, property, slot) ← orRefuse (splitPlace place)
  let branch ← editor.branchPathOf owner property
  let states ← orRefuse (editor.store.branch owner property)
  orRefuse (states.checkSlot property slot)
  -- A vacant slot has no node to be replaced; it can be assigned.
  if let some child := states.childAt? slot then
    if (← editor.store.expect child).stage = .vacant then
      throw (.refused (.replaceVacant (.place place)))
  return .replace branch slot (← orRefuse (editor.nodeAt (branch.child slot))) node

/-- The address of an optional child, whether it is assigned, and its item. -/
def optionalOf (editor : Editor) (place : Place) :
    Except Failure (BranchPath × Bool × Option Node) := do
  let (owner, property) ← orRefuse (splitOptional place)
  let branch ← editor.branchPathOf owner property
  let node ← orRefuse (editor.nodeAt branch.owner)
  return (branch, ← orRefuse (refuseShape (node.optional property)))

/-- The edit that assigns an optional child. -/
def planAssign (editor : Editor) (place : Place) (node : Option Node) : Except Failure Edit := do
  let (branch, assigned, retained) ← editor.optionalOf place
  if assigned then
    throw (.refused (.alreadyAssigned (.place place)))
  let after ← orElseRefuse (node <|> retained) (.nothingRetained place)
  return .assign branch retained after

/-- The edit that unassigns an optional child; its node is retained. -/
def planUnassign (editor : Editor) (place : Place) : Except Failure Edit := do
  match ← editor.optionalOf place with
  | (branch, true, some item) => return .unassign branch item (some item)
  | _ => throw (.refused (.notAssigned (.place place)))

/-- The edit that a command asks for, and the node to be announced again after it. -/
def plan (editor : Editor) : Command → Except Failure (Edit × Option Path)
  | .insert insertion => do
    let branch ← editor.branchPathOf insertion.parent insertion.property
    return (planInsert branch insertion.target insertion.node, none)
  | .remove place => return (← editor.planRemove place, none)
  | .replace place node => return (← editor.planReplace place node, none)
  | .move place delta => do
    let (owner, property, slot) ← orRefuse (splitPlace place)
    return (.move (← editor.branchPathOf owner property) slot delta, none)
  | .assign place node => return (← editor.planAssign place node, none)
  | .unassign place => return (← editor.planUnassign place, none)
  | .insertBlock branch block content => do
    let (path, _) ← editor.blocksOf branch
    return (.insertBlock path block content, none)
  | .removeBlock branch block => do
    let (path, states) ← editor.blocksOf branch
    let _ ← orRefuse (Blocks.blockAt block states)
    return (.removeBlock path block (← editor.blockAt path block), none)
  | .splitBlock branch block position => do
    let (path, states) ← editor.blocksOf branch
    let _ ← orRefuse (Blocks.blockAt block states)
    let content ← editor.blockAt path block
    return (.splitBlock path block position content.header, some path.owner)
  | .mergeBlocks branch block => do
    let (path, states) ← editor.blocksOf branch
    let position ← orRefuse (Blocks.checkMerge block states)
    let next ← editor.blockAt path (block + 1)
    return (.mergeBlocks path block position next.header, some path.owner)
  | .moveBlock branch block delta => do
    let (path, _) ← editor.blocksOf branch
    return (.moveBlock path block delta, none)
  | .changeReplication branch block replication => do
    let (path, states) ← editor.blocksOf branch
    let _ ← orRefuse (Blocks.blockAt block states)
    let content ← editor.blockAt path block
    return (.changeReplication path block content.header.replication replication,
      some path.owner)
  | .setValue state property value => do
    let owner ← editor.pathOf state
    let node ← orRefuse (editor.nodeAt owner)
    return (.setValue owner property (← orRefuse (refuseShape (node.value property))) value, none)

/-! ## Making edits and taking them back -/

/-- An answer, unless the settings ask for a check and the check finds a violation. -/
def checked {α : Type} (answer : α) (editor : Editor) : Outcome α :=
  if editor.settings.verifyInvariants then
    match editor.verify with
    | .ok () => (.ok answer, editor)
    | .error violation => (.error (.broken (.violated violation)), editor)
  else
    (.ok answer, editor)

/-- Announces the state at a path again, if there is one. -/
def refreshAt (path : Option Path) (editor : Editor) : Editor :=
  match path with
  | none => editor
  | some path =>
    match editor.resolve path with
    | .ok state => { editor with store := editor.store.announce (.refreshed state) }
    | .error _ => editor

/-- Records an edit that was made: in the open batch, or as a group of its own. -/
def recordEdit (edit : Edit) (refresh : Option Path) (editor : Editor) : Editor :=
  match editor.history.batch with
  | some batch =>
    { editor with history := { editor.history with batch := some (batch.record edit refresh) } }
  | none =>
    let editor := editor.refreshAt refresh
    { editor with history := editor.history.push (.single edit refresh none) }

/-- Makes an edit and records it. -/
def commit (edit : Edit) (refresh : Option Path) (editor : Editor) : Outcome Unit :=
  match editor.apply edit with
  | .error failure => (.error failure, editor)
  | .ok editor => (editor.recordEdit edit refresh).checked ()

/-- Takes an edit back that was just made. -/
def revert (editor : Editor) (edit : Edit) : Except Failure Editor :=
  match editor.apply edit.invert with
  | .ok editor => .ok editor
  | .error (.refused reason) => .error (.broken (.revertFailed edit.name reason))
  | .error (.broken breach) => .error (.broken breach)

/-- Takes edits back one after the other. -/
def revertAll : List Edit → Editor → Outcome Unit
  | [], editor => (.ok (), editor)
  | edit :: rest, editor =>
    match editor.revert edit with
    | .ok editor => revertAll rest editor
    | .error failure => (.error failure, editor)

/-- Makes edits one after the other. When one is refused those that were made, the last one in
front, are taken back. -/
def applyEach : (made : List Edit) → List Edit → Editor → Outcome Unit
  | _, [], editor => (.ok (), editor)
  | made, edit :: rest, editor =>
    match editor.apply edit with
    | .ok editor => applyEach (edit :: made) rest editor
    | .error (.broken breach) => (.error (.broken breach), editor)
    | .error (.refused reason) =>
      match revertAll made editor with
      | (.ok (), editor) => (.error (.refused reason), editor)
      | broken => broken

/-- Makes all of some edits or none. Nothing is announced before all are made, and nothing at all
when one is refused. -/
def applyAll (edits : List Edit) (editor : Editor) : Outcome Unit :=
  match applyEach [] edits editor with
  | (.ok (), after) => (.ok (), after)
  | (.error failure, after) =>
    -- The states stay as taking back has left them; only what was announced is dropped.
    (.error failure, { after with store := { after.store with journal := editor.store.journal } })

/-! ## Answering requests -/

/-- The answer of a command that went through. -/
def Command.reply : Command → Reply
  | .insert insertion => .landed insertion.place
  | _ => .done

/-- Carries a command out. -/
def perform (command : Command) (editor : Editor) : Outcome Reply :=
  match editor.plan command with
  | .error failure => (.error failure, editor)
  | .ok (edit, refresh) =>
    match editor.commit edit refresh with
    | (.ok (), editor) => (.ok (Command.reply command), editor)
    | (.error failure, editor) => (.error failure, editor)

/-- Undoes the newest group, if there is one. -/
def undo (editor : Editor) : Outcome Bool :=
  if editor.history.inBatch then
    (.error (.refused .batchOpen), editor)
  else
    match editor.history.popDone with
    | none => (.ok false, editor)
    | some (group, history) =>
      match editor.applyAll group.undoEdits with
      | (.error failure, editor) => (.error failure, editor)
      | (.ok (), editor) =>
        ({ editor.refreshAt group.refresh with history := history.pushUndone group }).checked true

/-- Redoes the group undone last, if there is one. -/
def redo (editor : Editor) : Outcome Bool :=
  if editor.history.inBatch then
    (.error (.refused .batchOpen), editor)
  else
    match editor.history.popUndone with
    | none => (.ok false, editor)
    | some (group, history) =>
      match editor.applyAll group.redoEdits with
      | (.error failure, editor) => (.error failure, editor)
      | (.ok (), editor) =>
        ({ editor.refreshAt group.refresh with history := history.pushDone group }).checked true

/-- Opens a batch. -/
def beginBatch (description : Option String) (editor : Editor) : Outcome Unit :=
  match editor.history.beginBatch description with
  | .ok history => (.ok (), { editor with history })
  | .error reason => (.error (.refused reason), editor)

/-- Closes the open batch; a batch without edits leaves no group. -/
def endBatch (editor : Editor) : Outcome Bool :=
  match editor.history.takeBatch with
  | .error reason => (.error (.refused reason), editor)
  | .ok (batch, history) =>
    match batch.group? with
    | none => (.ok false, { editor with history })
    | some group =>
      (.ok true, { editor.refreshAt group.refresh with history := history.push group })

/-- Takes back the edits of the open batch and drops it. -/
def abortBatch (editor : Editor) : Outcome Nat :=
  match editor.history.takeBatch with
  | .error reason => (.error (.refused reason), editor)
  | .ok (batch, history) =>
    match revertAll batch.edits.reverse { editor with history } with
    | (.ok (), editor) => editor.checked batch.edits.length
    | (.error failure, editor) => (.error failure, editor)

/-- Names the state to be announced again by the open batch. -/
def setBatchRefresh (state : Handle) (editor : Editor) : Outcome Unit :=
  match editor.pathOf state with
  | .error failure => (.error failure, editor)
  | .ok path =>
    match editor.history.batch with
    | none => (.error (.refused .noBatch), editor)
    | some batch =>
      let history := { editor.history with batch := some { batch with refresh := some path } }
      (.ok (), { editor with history })

/-- Makes the edits of a group and records it. -/
def execute (group : Group) (editor : Editor) : Outcome Unit :=
  if editor.history.inBatch then
    (.error (.refused .batchOpen), editor)
  else
    match editor.applyAll group.redoEdits with
    | (.error failure, editor) => (.error failure, editor)
    | (.ok (), editor) =>
      let editor := editor.refreshAt group.refresh
      ({ editor with history := editor.history.push group }).checked ()

/-- An outcome with its answer turned into a reply. -/
def replying {α : Type} (reply : α → Reply) (outcome : Outcome α) : Outcome Reply :=
  (outcome.1.map reply, outcome.2)

/-- Carries a request out. -/
def run (editor : Editor) : Request → Outcome Reply
  | .command command => editor.perform command
  | .undo => replying .whether editor.undo
  | .redo => replying .whether editor.redo
  | .beginBatch description => replying (fun _ => .done) (editor.beginBatch description)
  | .endBatch => replying .whether editor.endBatch
  | .abortBatch => replying .count editor.abortBatch
  | .setBatchRefresh state => replying (fun _ => .done) (editor.setBatchRefresh state)
  | .execute group => replying (fun _ => .done) (editor.execute group)

end Editor

end TreeEditor
