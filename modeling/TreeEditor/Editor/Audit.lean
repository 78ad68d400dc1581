import TreeEditor.Editor.Basic
import TreeEditor.Node.Equality

/-!
# Checking an editor

`Editor.verify` checks that the states stand for the document: that the register and the states
agree on where each state stands, that every state has a branch for each property with children of
its node and every branch a state for each child, in order, and that no state is left over. The
first disagreement found is reported.
-/

namespace TreeEditor

/-- The check of the state of a node, given its handle; it counts the states that it passed. -/
abbrev Check := Handle → Except Violation Nat

namespace Store

/-- The state of a handle that a branch holds. -/
def heldState (store : Store) (handle : Handle) : Except Violation State :=
  match store.get? handle with
  | some state => .ok state
  | none => .error (.deadChild handle)

/-- The state of a slot without a node is vacant and has no branches. -/
def checkVacant (store : Store) : Check := fun handle => do
  let state ← store.heldState handle
  if state.stage = .vacant ∧ state.inners = [] then return 1
  else throw (.wrongStage handle state.stage false)

/-- A state stands where the branch that holds it has it. -/
def checkPlace (store : Store) (expected : Place) (handle : Handle) : Except Violation Unit :=
  match store.get? handle with
  | some state =>
    if state.place = expected then .ok ()
    else .error (.misplaced handle state.place expected)
  | none => .error (.deadAt handle expected)

/-- The blocks of a branch have the headers and the numbers of members of those of the document. -/
def checkBlocks (site : BranchRef) (blocks : List (Block Node Node))
    (states : List (Block Node Handle)) : Except Violation Unit := do
  if blocks.length ≠ states.length then
    throw (.blockCount site states.length blocks.length)
  (blocks.zip states).zipIdx.forM fun ((content, state), block) => do
    if state.members.isEmpty then
      throw (.emptyBlock site block)
    if !(content.header.same state.header && content.members.length = state.members.length) then
      throw (.wrongBlock site block)

/-- Every child of a property has its state in the same slot of the branch. -/
def checkChildren (store : Store) (site : BranchRef) :
    List ((Slot × Node × Check) × (Slot × Handle)) → Except Violation Nat
  | [] => .ok 0
  | ((slot, _, check), (held, handle)) :: rest => do
    if slot ≠ held then
      throw (.outOfOrder site slot)
    store.checkPlace (.within site.owner site.property slot) handle
    let passed ← check handle
    return passed + (← store.checkChildren site rest)

/-- A branch stands for a property and was made for the state that keeps it. -/
def checkBranch (store : Store) (owner : Handle) (name : String)
    (property : Property (Node × Check)) (held : String) (inner : Inner) :
    Except Violation Nat := do
  let site : BranchRef := ⟨owner, held⟩
  if name ≠ held ∨ property.kind ≠ inner.branch.kind ∨ inner.owner ≠ owner then
    throw (.wrongBranch owner held name)
  -- The slot of an optional child holds a state even where there is no node.
  match property, inner.branch with
  | .optional assigned item, .optional child =>
    store.checkPlace (.within owner held .optional) child
    match assigned, item with
    | true, some (_, check) => check child
    | _, _ => store.checkVacant child
  | property, branch =>
    match property, branch with
    | .blockList blocks, .blockList states =>
      checkBlocks site (blocks.map (Block.map Prod.fst)) states
    | _, _ => pure ()
    let children := property.children
    let slots := branch.slots
    if children.length ≠ slots.length then
      throw (.childCount site slots.length children.length)
    store.checkChildren site (children.zip slots)

/-- The branches of a state stand for properties, in order. -/
def checkBranches (store : Store) (owner : Handle) :
    List ((String × Property (Node × Check)) × (String × Inner)) → Except Violation Nat
  | [] => .ok 0
  | ((name, property), (held, inner)) :: rest => do
    let passed ← store.checkBranch owner name property held inner
    return passed + (← store.checkBranches owner rest)

/-- A state and everything under it stand for a node and everything under it. -/
def checkNode (grammar : Grammar) (store : Store) (node : Node) : Check :=
  node.fold fun kind properties handle => do
    let state ← store.heldState handle
    if state.stage ≠ .ready then
      throw (.wrongStage handle state.stage true)
    let browsed ← (grammar.browse kind properties).mapError .unshaped
    if browsed.length ≠ state.inners.length then
      throw (.branchCount handle state.inners.length kind browsed.length)
    return 1 + (← store.checkBranches handle (browsed.zip state.inners))

/-- Every place on the register is that of a live state which stands there. -/
def checkRegister (store : Store) : Except Violation Unit :=
  store.register.forM fun (place, handle) =>
    match store.get? handle with
    | none => .error (.placeOfRemoved place handle)
    | some state =>
      if state.place = place then .ok () else .error (.placeOfOther place handle state.place)

/-- Every live state is registered where it stands. -/
def checkStates (store : Store) : Except Violation Unit :=
  store.arena.toList.forM fun (handle, state) =>
    if store.stateAt? state.place = some handle then .ok ()
    else .error (.unregistered handle state.place)

end Store

/-- The states stand for the document and nothing is left over. -/
def Editor.verify (editor : Editor) : Except Violation Unit := do
  editor.store.checkRegister
  editor.store.checkStates
  let passed ← editor.store.checkNode editor.grammar editor.document editor.root
  if passed ≠ editor.stateCount then
    throw (.unreachable (editor.stateCount - passed))

end TreeEditor
