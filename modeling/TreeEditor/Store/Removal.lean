import TreeEditor.Store.Basic

/-!
# Removing states

A state goes away after everything under it, in the order of the document; a block goes away after
its members. The handle of a removed state names nothing from then on.
-/

namespace TreeEditor.Store

/-- Removes the members of blocks from a position on, each block being announced after its
members. -/
def releaseBlocks (remove : Handle → Store → Except Failure Store) (branch : BranchRef)
    (position : Nat) : List (Block Node Handle) → Store → Except Failure Store
  | [], store => .ok store
  | block :: rest, store => do
    let store ← block.members.foldlM (fun store member => remove member store) store
    releaseBlocks remove branch (position + 1) rest
      (store.announce (.blockDestroyed branch position))

/-- Removes the states of a branch, given how one state is removed. -/
def releaseWith (remove : Handle → Store → Except Failure Store) (owner : Handle)
    (property : String) (branch : Branch) (store : Store) : Except Failure Store :=
  match branch with
  | .blockList blocks => releaseBlocks remove ⟨owner, property⟩ 0 blocks store
  | branch => branch.children.foldlM (fun store child => remove child store) store

/-- Removes a state that has fewer than `generations` generations under it. -/
def destroyWithin : (generations : Nat) → Handle → Store → Except Failure Store
  | 0, handle, _ => .error (.broken (.endless handle))
  | generations + 1, handle, store => do
    let state ← store.expect handle
    -- The state has no branches while what they held goes away.
    let store := store.modify handle fun state => { state with inners := [] }
    let store ← state.inners.foldlM (fun store (property, inner) =>
      releaseWith (destroyWithin generations) inner.owner property inner.branch store) store
    match store.arena.remove handle with
    | none => throw (.broken (.removedTwice handle))
    | some (state, arena) =>
      let store := { store with arena }.dismiss state.place handle
      return store.announce (.stateDestroyed state.place handle)

/-- A bound on the generations of states: no line of descent holds more states than there are
cells. -/
def generations (store : Store) : Nat := store.arena.cells.length + 1

/-- Removes a state and everything under it. -/
def destroy (handle : Handle) (store : Store) : Except Failure Store :=
  destroyWithin store.generations handle store

/-- Removes everything under a state and leaves the state without branches. -/
def clear (handle : Handle) (store : Store) : Except Failure Store := do
  let state ← store.expect handle
  let cleared := store.modify handle fun state => { state with inners := [] }
  state.inners.foldlM (fun current (property, inner) =>
    releaseWith (destroyWithin store.generations) inner.owner property inner.branch current) cleared

end TreeEditor.Store
