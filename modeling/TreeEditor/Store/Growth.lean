import TreeEditor.Grammar.Basic
import TreeEditor.Store.Basic

/-!
# Growing states

How the states for a document come to be. A state is announced when it is registered and again when
it is settled; in between its branches are grown in the order of the grammar, children in the order
of the document, each with everything under it before the next one.
-/

namespace TreeEditor

/-- How the branches of a state are grown, given its handle. -/
abbrev Growth := Handle → Store → Except Failure Store

namespace Store

/-- Grows the branches of a state, which then is ready. Without anything to grow it is vacant. -/
def fill (handle : Handle) (growth : Option Growth) (store : Store) : Except Failure Store :=
  match growth with
  | some grow => do (← grow handle store).enter handle .ready
  | none => store.enter handle .vacant

/-- Announces a state, grows its branches and announces that it is settled. -/
def settle (place : Place) (handle : Handle) (growth : Option Growth) (store : Store) :
    Except Failure Store := do
  let store := store.announce (.stateCreated place handle)
  let store ← store.fill handle growth
  return store.announce (.stateSettled place handle)

/-- Makes, registers and settles a state for a place. -/
def create (place : Place) (growth : Option Growth) (store : Store) :
    Except Failure (Handle × Store) := do
  let (handle, store) := store.allocate place
  let store ← (store.enroll place handle).settle place handle growth
  return (handle, store)

/-- Creates states for places one after the other. -/
def createAll : List (Place × Growth) → Store → Except Failure (List Handle × Store)
  | [], store => .ok ([], store)
  | (place, grow) :: rest, store => do
    let (handle, store) ← store.create place (some grow)
    let (handles, store) ← createAll rest store
    return (handle :: handles, store)

/-- Creates the states for the members of the blocks from a position on, each block being announced
before its members. -/
def createBlocks (owner : Handle) (property : String) (position : Nat) :
    List (Block (Node × Growth) (Node × Growth)) → Store →
      Except Failure (List (Block Node Handle) × Store)
  | [], store => .ok ([], store)
  | block :: rest, store => do
    let store := store.announce (.blockCreated ⟨owner, property⟩ position)
    let places := block.members.zipIdx.map fun entry =>
      (Place.within owner property (.member position entry.2), entry.1.2)
    let (members, store) ← store.createAll places
    let (blocks, store) ← createBlocks owner property (position + 1) rest store
    return (⟨block.header.map Prod.fst, members⟩ :: blocks, store)

/-- Grows the branch of a state for a property. -/
def growBranch (owner : Handle) (name : String) (property : Property (Node × Growth))
    (store : Store) : Except Failure Store :=
  match property with
  | .value _ => .ok store
  | .child (_, grow) => do
    let (child, store) ← store.create (.within owner name .placeholder) (some grow)
    return store.setBranch owner name (.placeholder child)
  | .optional assigned item => do
    let growth := if assigned then item.map Prod.snd else none
    let (child, store) ← store.create (.within owner name .optional) growth
    return store.setBranch owner name (.optional child)
  | .list nodes => do
    let places := nodes.zipIdx.map fun entry =>
      (Place.within owner name (.list entry.2), entry.1.2)
    let (children, store) ← store.createAll places
    return store.setBranch owner name (.list children)
  | .blockList blocks => do
    let store := store.announce (.blockListCreated ⟨owner, name⟩)
    let (blocks, store) ← store.createBlocks owner name 0 blocks
    return store.setBranch owner name (.blockList blocks)

end Store

/-- How the branches of the state of a node are grown: one for each property with children, in the
order of the grammar. -/
def Grammar.growth (grammar : Grammar) (node : Node) : Growth :=
  node.fold fun kind properties owner store => do
    let branches ← orRefuse (refuseShape (grammar.browse kind properties))
    branches.foldlM (fun store (name, property) => store.growBranch owner name property) store

end TreeEditor
