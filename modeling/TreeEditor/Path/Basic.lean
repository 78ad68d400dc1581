import TreeEditor.Slot

/-!
# Paths

A path leads from the root of a document to a node: each step names a property and a slot in it.
Edits are addressed by paths and not by handles, because undoing a removal makes new handles, while
a path stays good as long as edits are replayed in their order.
-/

namespace TreeEditor

/-- A step from a node to one of its children. -/
structure Step where
  property : String
  slot : Slot
deriving DecidableEq, Inhabited

/-- A step as it stands in a path. -/
def Step.text (step : Step) : String := step.property ++ step.slot.text

/-- The steps from the root to a node; none for the root itself. -/
abbrev Path := List Step

namespace Path

/-- The path of a child. -/
def child (path : Path) (property : String) (slot : Slot) : Path := path ++ [⟨property, slot⟩]

/-- The path of the owner of the last step. -/
def parent? (path : Path) : Option Path := if path.isEmpty then none else some path.dropLast

/-- The last step together with the path of its owner. -/
def split? (path : Path) : Option (Path × Step) :=
  path.getLast?.map fun step => (path.dropLast, step)

/-- A path as text: every step after a slash, and a slash alone for the root. -/
def text (path : Path) : String :=
  if path.isEmpty then "/" else String.join (path.map fun step => "/" ++ step.text)

end Path

/-- The address of a property with children: the path of its owner and its name. -/
structure BranchPath where
  owner : Path
  property : String
deriving DecidableEq, Inhabited

namespace BranchPath

/-- The path of the child in a slot of the property. -/
def child (branch : BranchPath) (slot : Slot) : Path := branch.owner.child branch.property slot

/-- The address as text. -/
def text (branch : BranchPath) : String :=
  if branch.owner.isEmpty then "/" ++ branch.property
  else branch.owner.text ++ "/" ++ branch.property

instance : ToString BranchPath := ⟨text⟩

end BranchPath

end TreeEditor
