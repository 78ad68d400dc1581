import TreeEditor.Edit.Basic
import TreeEditor.Refusal

/-!
# Groups of edits

A group is a list of edits, at least one, that are made together or not at all and are undone and
redone together. It may name a node to be announced again once the edits are made, in either
direction, and it may be described.
-/

namespace TreeEditor

/-- Edits that are made together. -/
structure Group where
  edits : List Edit
  nonempty : edits ≠ []
  /-- The node to be announced again afterwards. -/
  refresh : Option Path
  description : Option String

namespace Group

/-- The group of a single edit. -/
def single (edit : Edit) (refresh : Option Path) (description : Option String) : Group :=
  ⟨[edit], List.cons_ne_nil _ _, refresh, description⟩

/-- The group of some edits, unless there are none. -/
def ofList? (edits : List Edit) (refresh : Option Path) (description : Option String) :
    Option Group :=
  if h : edits = [] then none else some ⟨edits, h, refresh, description⟩

/-- The group of some edits; no edits are refused. -/
def ofList (edits : List Edit) (refresh : Option Path) (description : Option String) :
    Except Refusal Group :=
  match ofList? edits refresh description with
  | some group => .ok group
  | none => .error .emptyGroup

/-- The number of edits. -/
def size (group : Group) : Nat := group.edits.length

/-- The edits of a group of several are part of something larger. -/
def nested (group : Group) : Bool := 1 < group.size

/-- The edits to make to redo the group. -/
def redoEdits (group : Group) : List Edit := group.edits

/-- The edits to make to undo the group: the last one is taken back first. -/
def undoEdits (group : Group) : List Edit := group.edits.reverse.map Edit.invert

end Group

end TreeEditor
