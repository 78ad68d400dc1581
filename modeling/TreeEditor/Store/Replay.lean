import TreeEditor.Store.Removal

/-!
# Replaying events

The events that tell a latecomer of the states there are, as if they had just been created, and
those that tell of their removal, as if they were all removed now. Replaying changes nothing.
-/

namespace TreeEditor.Store

/-- The events for every item of a list, one item after the other. -/
def eventsOfAll {α : Type} (events : α → Except Failure (List Event)) (items : List α) :
    Except Failure (List Event) := do
  return (← items.mapM events).flatten

/-- The events of the creation of a branch, given those for its children. -/
def branchCreation (events : Handle → Except Failure (List Event)) (branch : BranchRef) :
    Branch → Except Failure (List Event)
  | .blockList blocks => do
    let members ← eventsOfAll (fun (block, position) => do
      return .blockCreated branch position :: (← eventsOfAll events block.members)) blocks.zipIdx
    return .blockListCreated branch :: members
  | other => eventsOfAll events other.children

/-- The events of the removal of a branch, given those for its children. -/
def branchRemoval (events : Handle → Except Failure (List Event)) (branch : BranchRef) :
    Branch → Except Failure (List Event)
  | .blockList blocks =>
    eventsOfAll (fun (block, position) => do
      return (← eventsOfAll events block.members) ++ [.blockDestroyed branch position])
      blocks.zipIdx
  | other => eventsOfAll events other.children

/-- The events of the creation of a state with fewer than so many generations under it. -/
def creationWithin (store : Store) : (generations : Nat) → Handle → Except Failure (List Event)
  | 0, handle => .error (.broken (.endless handle))
  | generations + 1, handle => do
    let state ← store.expect handle
    let inside ← eventsOfAll (fun (property, inner) =>
      branchCreation (creationWithin store generations) ⟨inner.owner, property⟩ inner.branch)
      state.inners
    return .stateCreated state.place handle :: inside ++ [.stateSettled state.place handle]

/-- The events of the removal of a state with fewer than so many generations under it. -/
def removalWithin (store : Store) : (generations : Nat) → Handle → Except Failure (List Event)
  | 0, handle => .error (.broken (.endless handle))
  | generations + 1, handle => do
    let state ← store.expect handle
    let inside ← eventsOfAll (fun (property, inner) =>
      branchRemoval (removalWithin store generations) ⟨inner.owner, property⟩ inner.branch)
      state.inners
    return inside ++ [.stateDestroyed state.place handle]

/-- The events that tell of a state and everything under it. -/
def creationEvents (store : Store) (handle : Handle) : Except Failure (List Event) :=
  store.creationWithin store.generations handle

/-- The events that tell of the removal of a state and everything under it. -/
def removalEvents (store : Store) (handle : Handle) : Except Failure (List Event) :=
  store.removalWithin store.generations handle

end TreeEditor.Store
