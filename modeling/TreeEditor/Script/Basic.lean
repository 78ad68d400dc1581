import TreeEditor.Editor.Request

/-!
# Scripts

A script is a list of instructions that name nodes by the text of their paths. An instruction is
carried out as a request: its paths are read and resolved first. Undoing or redoing where there is
nothing to undo or redo is a fault in a script.
-/

namespace TreeEditor

/-- An instruction of a script. -/
inductive Instruction where
  /-- Inserts a node so that it lands at a path. -/
  | insert (path : String) (node : Node)
  | remove (path : String)
  | replace (path : String) (node : Node)
  | move (path : String) (delta : Int)
  | assign (path : String) (node : Option Node)
  | unassign (path : String)
  | insertBlock (branch : String) (block : Nat) (content : Block Node Node)
  | removeBlock (branch : String) (block : Nat)
  | splitBlock (branch : String) (block position : Nat)
  | mergeBlocks (branch : String) (block : Nat)
  | moveBlock (branch : String) (block : Nat) (delta : Int)
  | changeReplication (branch : String) (block : Nat) (replication : Replication)
  | setValue (path property : String) (value : Leaf)
  | undo
  | redo
  | beginBatch (description : Option String)
  | endBatch
  | abortBatch

/-- Why an instruction cannot be carried out. -/
inductive Fault where
  | failed (failure : Failure)
  | noProperty (path : String)
  | insertAtRoot
  | noInsertion (path : Path)
  | nothingToUndo
  | nothingToRedo

/-- The text of a failure. -/
def Failure.message : Failure → String
  | refused reason => reason.message
  | broken breach => breach.message

/-- The text of a fault. -/
def Fault.message : Fault → String
  | failed failure => failure.message
  | noProperty path => s!"`{path}` does not name a property"
  | insertAtRoot => "Cannot insert at the root"
  | noInsertion path => s!"Cannot insert into `{path.text}`: not a list or block slot"
  | nothingToUndo => "Nothing to undo"
  | nothingToRedo => "Nothing to redo"

namespace Instruction

/-! ## Texts -/

/-- The name of an instruction. -/
def name : Instruction → String
  | insert .. => "insert"
  | remove .. => "remove"
  | replace .. => "replace"
  | move .. => "move"
  | assign .. => "assign"
  | unassign .. => "unassign"
  | insertBlock .. => "insertBlock"
  | removeBlock .. => "removeBlock"
  | splitBlock .. => "splitBlock"
  | mergeBlocks .. => "mergeBlocks"
  | moveBlock .. => "moveBlock"
  | changeReplication .. => "changeReplication"
  | setValue .. => "setValue"
  | undo => "undo"
  | redo => "redo"
  | beginBatch .. => "beginBatch"
  | endBatch => "endBatch"
  | abortBatch => "abortBatch"

/-- What an instruction is about, as it names it. -/
def target? : Instruction → Option String
  | insert path _ | remove path | replace path _ | move path _ | assign path _
  | unassign path => some path
  | setValue path property _ => some s!"{path}.{property}"
  | insertBlock branch block _ | removeBlock branch block | splitBlock branch block _
  | mergeBlocks branch block | moveBlock branch block _ | changeReplication branch block _ =>
    some s!"{branch} block {block}"
  | undo | redo | beginBatch _ | endBatch | abortBatch => none

/-- An instruction as text. -/
def text (instruction : Instruction) : String :=
  match instruction.target? with
  | some target => instruction.name ++ " " ++ target
  | none => instruction.name

/-! ## Requests -/

/-- A refusal as a fault. -/
def orFault {α : Type} (result : Except Refusal α) : Except Fault α :=
  result.mapError fun reason => .failed (.refused reason)

/-- The place that a text names. -/
def placeOf (editor : Editor) (path : String) : Except Fault Place := do
  orFault (editor.placeAt (← orFault (Path.parse path)))

/-- The property that a text names. -/
def branchOf (editor : Editor) (path : String) : Except Fault BranchRef := do
  match (← orFault (Path.parse path)).split? with
  | some (owner, ⟨property, .placeholder⟩) => return ⟨← orFault (editor.resolve owner), property⟩
  | _ => throw (.noProperty path)

/-- The insertion of a node that lands at a path. -/
def insertionOf (editor : Editor) (path : String) (node : Node) : Except Fault Insertion := do
  let path ← orFault (Path.parse path)
  match path.split? with
  | none => throw .insertAtRoot
  | some (owner, step) =>
    let parent ← orFault (editor.resolve owner)
    match step.slot with
    | .list position => return ⟨parent, step.property, .list position, node⟩
    | .member block position => return ⟨parent, step.property, .member block position, node⟩
    | _ => throw (.noInsertion path)

/-- The request that an instruction makes of an editor. -/
def request (editor : Editor) : Instruction → Except Fault Request
  | insert path node => return .command (.insert (← insertionOf editor path node))
  | remove path => return .command (.remove (← placeOf editor path))
  | replace path node => return .command (.replace (← placeOf editor path) node)
  | move path delta => return .command (.move (← placeOf editor path) delta)
  | assign path node => return .command (.assign (← placeOf editor path) node)
  | unassign path => return .command (.unassign (← placeOf editor path))
  | insertBlock branch block content =>
    return .command (.insertBlock (← branchOf editor branch) block content)
  | removeBlock branch block => return .command (.removeBlock (← branchOf editor branch) block)
  | splitBlock branch block position =>
    return .command (.splitBlock (← branchOf editor branch) block position)
  | mergeBlocks branch block => return .command (.mergeBlocks (← branchOf editor branch) block)
  | moveBlock branch block delta =>
    return .command (.moveBlock (← branchOf editor branch) block delta)
  | changeReplication branch block replication =>
    return .command (.changeReplication (← branchOf editor branch) block replication)
  | setValue path property value => do
    let state ← orFault (editor.resolve (← orFault (Path.parse path)))
    return .command (.setValue state property value)
  | undo => return .undo
  | redo => return .redo
  | beginBatch description => return .beginBatch description
  | endBatch => return .endBatch
  | abortBatch => return .abortBatch

/-- What the reply to the request of an instruction means for the script. -/
def judge : Instruction → Reply → Except Fault Unit
  | undo, .whether false => .error .nothingToUndo
  | redo, .whether false => .error .nothingToRedo
  | _, _ => .ok ()

/-- Carries an instruction out. -/
def follow (instruction : Instruction) (editor : Editor) : Except Fault Unit × Editor :=
  match instruction.request editor with
  | .error fault => (.error fault, editor)
  | .ok request =>
    match editor.run request with
    | (.error failure, editor) => (.error (.failed failure), editor)
    | (.ok reply, editor) => (instruction.judge reply, editor)

end Instruction

end TreeEditor
