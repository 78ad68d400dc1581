import TreeEditor.Branch
import TreeEditor.Event
import TreeEditor.Failure

/-!
# The store of states

The states that stand for the nodes of a document, one for every node that takes part in the
editing and one for every vacant optional slot. They are kept in an arena; a register leads from
each place to the state that stands there, and a journal holds the events announced so far.

The node of a state is not kept with it. It is the node at the path of the state, which follows
from its place and the places of its ancestors.
-/

namespace TreeEditor

/-- A branch as a state keeps it, with the handle of the state that it was made for. -/
structure Inner where
  owner : Handle
  branch : Branch

/-- A state: where it stands, its stage, and a branch for each property with children. -/
structure State where
  place : Place
  stage : Stage
  inners : Table String Inner

namespace State

/-- The branches of a state by the names of the properties. -/
def branches (state : State) : Table String Branch :=
  state.inners.map fun (name, inner) => (name, inner.branch)

/-- Puts a branch in for a property. It is kept as the one was that was there; if there was none it
is made for the owner. -/
def setBranch (owner : Handle) (name : String) (branch : Branch) (state : State) : State :=
  let inner := match Table.get? name state.inners with
    | some inner => { inner with branch }
    | none => ⟨owner, branch⟩
  { state with inners := Table.set name inner state.inners }

end State

/-- The states, their register and what they announced. -/
structure Store where
  arena : Arena State
  register : Table Place Handle
  journal : Array Event

namespace Store

/-- A store without states. -/
def empty : Store := ⟨.empty, [], #[]⟩

instance : Inhabited Store := ⟨empty⟩

/-- Announces an event. -/
def announce (event : Event) (store : Store) : Store :=
  { store with journal := store.journal.push event }

/-! ## Looking up -/

/-- The state of a handle. -/
def get? (store : Store) (handle : Handle) : Option State := store.arena.get? handle

/-- The state that a place is registered for. -/
def stateAt? (store : Store) (place : Place) : Option Handle := Table.get? place store.register

/-- The state of a handle that a caller gave. -/
def live (store : Store) (handle : Handle) : Except Refusal State :=
  match store.get? handle with
  | some state => .ok state
  | none =>
    if store.arena.isStale handle then .error (.removedState handle)
    else .error (.unknownState handle)

/-- The state of a handle that is known to be live. -/
def expect (store : Store) (handle : Handle) : Except Failure State :=
  match store.get? handle with
  | some state => .ok state
  | none => .error (.broken (.notLive handle))

/-- The branch of a state for a property. -/
def branch (store : Store) (owner : Handle) (property : String) : Except Refusal Branch := do
  let state ← store.live owner
  match Table.get? property state.branches with
  | some branch => return branch
  | none => throw (.noBranch ⟨owner, property⟩)

/-- The blocks of a state for a property that is a list of blocks. -/
def blocks (store : Store) (owner : Handle) (property : String) :
    Except Refusal (List (Block Node Handle)) := do
  (← store.branch owner property).blocks property

/-! ## Changing one state -/

/-- Changes the state of a handle. -/
def modify (handle : Handle) (change : State → State) (store : Store) : Store :=
  { store with arena := store.arena.modify handle change }

/-- Moves a state to a stage, if there is one under the handle. -/
def setStage (handle : Handle) (stage : Stage) (store : Store) : Store :=
  store.modify handle fun state => { state with stage }

/-- Moves a state that is known to be live to a stage. -/
def enter (handle : Handle) (stage : Stage) (store : Store) : Except Failure Store := do
  let _ ← store.expect handle
  return store.setStage handle stage

/-- Sets the branch of a state for a property. -/
def setBranch (owner : Handle) (property : String) (branch : Branch) (store : Store) : Store :=
  store.modify owner (State.setBranch owner property branch)

/-- Makes a state for a place without registering it there. -/
def allocate (place : Place) (store : Store) : Handle × Store :=
  let (handle, arena) := store.arena.insert ⟨place, .created, []⟩
  (handle, { store with arena })

/-- Registers a place for a state. -/
def enroll (place : Place) (handle : Handle) (store : Store) : Store :=
  { store with register := Table.set place handle store.register }

/-- Takes a place off the register, unless it is registered for another state by now. -/
def dismiss (place : Place) (handle : Handle) (store : Store) : Store :=
  if store.stateAt? place = some handle then
    { store with register := Table.erase place store.register }
  else
    store

/-! ## Shifted siblings -/

/-- Moves a state to a place and takes its earlier place off the register. -/
def relocate (store : Store) (place : Place) (handle : Handle) : Except Failure Store := do
  let state ← store.expect handle
  if state.place = place then
    return store
  else
    return (store.modify handle fun state => { state with place }).dismiss state.place handle

/-- Gives every child of a branch the place that its slot now is. All earlier places are taken off
the register before the new ones are put on it, so that a place that passes from one sibling to
another is not lost. -/
def reindex (owner : Handle) (property : String) (store : Store) : Except Failure Store :=
  match store.branch owner property with
  | .error _ => .ok store
  | .ok branch => do
    let store ← branch.slots.foldlM (fun store (slot, child) =>
      store.relocate (.within owner property slot) child) store
    return branch.slots.foldl (fun store (slot, child) =>
      store.enroll (.within owner property slot) child) store

end Store

end TreeEditor
