import TreeEditor.Arena
import TreeEditor.Slot

/-!
# Places

A place is where a state stands: at the root, or in a slot of a property of its parent's state.
Every live state is registered under exactly one place. An insertion describes a place that does
not exist yet, together with the node to put there.
-/

namespace TreeEditor

/-- A property with children of the node of a state. -/
structure BranchRef where
  owner : Handle
  property : String
deriving DecidableEq, Inhabited

/-- A property with children as text. -/
def BranchRef.text (branch : BranchRef) : String := s!"{branch.owner}.{branch.property}"

instance : ToString BranchRef := ⟨BranchRef.text⟩

/-- Where a state stands. -/
inductive Place where
  | root
  | within (parent : Handle) (property : String) (slot : Slot)
deriving DecidableEq, Inhabited

namespace Place

/-- The property that a place is in; the root is in none. -/
def branch? : Place → Option BranchRef
  | root => none
  | within parent property _ => some ⟨parent, property⟩

/-- The parent, the property and the slot of a place other than the root. -/
def slot? : Place → Option (Handle × String × Slot)
  | root => none
  | within parent property slot => some (parent, property, slot)

/-- A place as text. -/
def text : Place → String
  | root => "root"
  | within parent property slot => s!"{parent}.{property}{slot}"

instance : ToString Place := ⟨text⟩

end Place

/-- Where in a property an insertion puts its node. -/
inductive Target where
  | list (position : Nat)
  | member (block position : Nat)
  /-- A new block of which the node is the only member. -/
  | newBlock (block : Nat) (header : Header Node)

/-- The slot of the node once it is there. -/
def Target.slot : Target → Slot
  | list position => .list position
  | member block position => .member block position
  | newBlock block _ => .member block 0

/-- A place to be made by putting a node there. -/
structure Insertion where
  parent : Handle
  property : String
  target : Target
  node : Node

/-- The place of the node once it is there. -/
def Insertion.place (insertion : Insertion) : Place :=
  .within insertion.parent insertion.property insertion.target.slot

/-- The property that an insertion is made in. -/
def Insertion.branch (insertion : Insertion) : BranchRef :=
  ⟨insertion.parent, insertion.property⟩

end TreeEditor
