import TreeEditor.Node.Basic

/-!
# Slots

A slot is the place of a child inside the property that holds it: the only place of a mandatory or
an optional child, a position in a list, or a position in one block of a list of blocks.
-/

namespace TreeEditor

/-- A position or a count as a signed 64-bit number reads it: one that does not fit is negative. No
list is so long. -/
def signed (position : Nat) : Int :=
  if position < 0x8000000000000000 then position
  else min (position - 0x10000000000000000) (-1)

/-- The place of a child inside a property. -/
inductive Slot where
  | placeholder
  | optional
  | list (position : Nat)
  | member (block position : Nat)
deriving DecidableEq, Inhabited

namespace Slot

/-- The position in a list or block. -/
def position? : Slot → Option Nat
  | list position | member _ position => some position
  | placeholder | optional => none

/-- The block that the slot is in. -/
def block? : Slot → Option Nat
  | member block _ => some block
  | _ => none

/-- The slot at another position of the same list or block. -/
def moveTo (position : Nat) : Slot → Slot
  | list _ => list position
  | member block _ => member block position
  | slot => slot

/-- A slot as it stands in a path. -/
def text : Slot → String
  | placeholder => ""
  | optional => "?"
  | list position => s!"[{position}]"
  | member block position => s!"[{block}:{position}]"

instance : ToString Slot := ⟨text⟩

/-- A slot as it stands in a message about it. -/
def description : Slot → String
  | placeholder => "Placeholder"
  | optional => "Optional"
  | list position => s!"List({position})"
  | member block position => s!"Block \x7b block: {block}, position: {position} \x7d"

end Slot

/-- The members of a list with their slots. -/
def listSlots {μ : Type} (items : List μ) : List (Slot × μ) :=
  items.zipIdx.map fun entry => (.list entry.2, entry.1)

/-- The members of a list of blocks with their slots. -/
def blockSlots {α μ : Type} (blocks : List (Block α μ)) : List (Slot × μ) :=
  blocks.zipIdx.flatMap fun entry =>
    entry.1.members.zipIdx.map fun member => (.member entry.2 member.2, member.1)

/-- The children of a property with their slots. The item of an optional child that is not
assigned is no child. -/
def Property.children {α : Type} : Property α → List (Slot × α)
  | .value _ => []
  | .child node => [(.placeholder, node)]
  | .optional assigned item => if assigned then item.toList.map (.optional, ·) else []
  | .list nodes => listSlots nodes
  | .blockList blocks => blockSlots blocks

end TreeEditor
