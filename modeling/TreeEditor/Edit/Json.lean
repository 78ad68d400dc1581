import TreeEditor.Edit.Group
import TreeEditor.Node.Json
import TreeEditor.Path.Json

/-!
# Edits as JSON

An edit is a choice named for what it does, whose content is a record of what it records. A group
is only written: each of its edits says whether it is one of several.
-/

namespace TreeEditor

open Json

/-- The form of an edit. -/
def Edit.toJson : Edit → Json
  | insert branch slot node =>
    .obj [("insert", .obj [("inner", branch.toJson), ("slot", slot.toJson),
      ("node", node.toJson)])]
  | remove branch slot node =>
    .obj [("remove", .obj [("inner", branch.toJson), ("slot", slot.toJson),
      ("node", node.toJson)])]
  | replace branch slot before after =>
    .obj [("replace", .obj [("inner", branch.toJson), ("slot", slot.toJson),
      ("before", before.toJson), ("after", after.toJson)])]
  | move branch slot delta =>
    .obj [("move", .obj [("inner", branch.toJson), ("slot", slot.toJson), ("delta", .int delta)])]
  | assign branch before after =>
    .obj [("assign", .obj [("inner", branch.toJson), ("before", .ofOption (before.map Node.toJson)),
      ("after", after.toJson)])]
  | unassign branch item restore =>
    .obj [("unassign", .obj [("inner", branch.toJson), ("item", item.toJson),
      ("restore", .ofOption (restore.map Node.toJson))])]
  | insertBlock branch block content =>
    .obj [("insertBlock", .obj [("inner", branch.toJson), ("block", .nat block),
      ("content", content.toJson)])]
  | removeBlock branch block content =>
    .obj [("removeBlock", .obj [("inner", branch.toJson), ("block", .nat block),
      ("content", content.toJson)])]
  | splitBlock branch block position header =>
    .obj [("splitBlock", .obj [("inner", branch.toJson), ("block", .nat block),
      ("position", .nat position), ("header", header.toJson)])]
  | mergeBlocks branch block position header =>
    .obj [("mergeBlocks", .obj [("inner", branch.toJson), ("block", .nat block),
      ("position", .nat position), ("header", header.toJson)])]
  | moveBlock branch block delta =>
    .obj [("moveBlock", .obj [("inner", branch.toJson), ("block", .nat block),
      ("delta", .int delta)])]
  | changeReplication branch block before after =>
    .obj [("changeReplication", .obj [("inner", branch.toJson), ("block", .nat block),
      ("before", before.toJson), ("after", after.toJson)])]
  | setValue owner property before after =>
    .obj [("setValue", .obj [("owner", owner.toJson), ("property", .str property),
      ("before", before.toJson), ("after", after.toJson)])]

namespace Edit

/-- The address that an edit starts with. -/
def branchField (depth : Nat) : Record BranchPath :=
  .required "inner" (BranchPath.decoder depth)

/-- A node that an edit records. -/
def nodeField (name : String) (depth : Nat) : Record Node :=
  .required name (Node.decoder false depth)

/-- A node that an edit may record; an array may not leave it off. -/
def itemField (name : String) (depth : Nat) : Record (Option Node) :=
  .omittable name (Decoder.nullable (Node.decoder false) depth)

/-- A position that an edit records. -/
def positionField (name : String) (depth : Nat) : Record Nat :=
  .required name (Decoder.position depth)

/-- A slot that an edit records. -/
def slotField (depth : Nat) : Record Slot := .required "slot" (Slot.decoder depth)

/-- A distance that an edit records. -/
def deltaField (depth : Nat) : Record Int := .required "delta" (Decoder.distance depth)

/-- A replication status that an edit records. -/
def replicationField (name : String) (depth : Nat) : Record Replication :=
  .required name (Replication.decoder false depth)

/-- A leaf that an edit records. -/
def leafField (name : String) (depth : Nat) : Record Leaf :=
  .required name (Leaf.decoder depth)

/-- What an edit of a name records. -/
def recordOf (name : String) (depth : Nat) : Record Edit :=
  match name with
  | "insert" => do
    return insert (← branchField depth) (← slotField depth) (← nodeField "node" depth)
  | "remove" => do
    return remove (← branchField depth) (← slotField depth) (← nodeField "node" depth)
  | "replace" => do
    return replace (← branchField depth) (← slotField depth) (← nodeField "before" depth)
      (← nodeField "after" depth)
  | "move" => do
    return move (← branchField depth) (← slotField depth) (← deltaField depth)
  | "assign" => do
    return assign (← branchField depth) (← itemField "before" depth) (← nodeField "after" depth)
  | "unassign" => do
    return unassign (← branchField depth) (← nodeField "item" depth) (← itemField "restore" depth)
  | "insertBlock" => do
    return insertBlock (← branchField depth) (← positionField "block" depth)
      (← .required "content" (Block.decoder false depth))
  | "removeBlock" => do
    return removeBlock (← branchField depth) (← positionField "block" depth)
      (← .required "content" (Block.decoder false depth))
  | "splitBlock" => do
    return splitBlock (← branchField depth) (← positionField "block" depth)
      (← positionField "position" depth) (← .required "header" (Header.decoder depth))
  | "mergeBlocks" => do
    return mergeBlocks (← branchField depth) (← positionField "block" depth)
      (← positionField "position" depth) (← .required "header" (Header.decoder depth))
  | "moveBlock" => do
    return moveBlock (← branchField depth) (← positionField "block" depth) (← deltaField depth)
  | "changeReplication" => do
    return changeReplication (← branchField depth) (← positionField "block" depth)
      (← replicationField "before" depth) (← replicationField "after" depth)
  | "setValue" => do
    return setValue (← .required "owner" (Path.decoder depth))
      (← .required "property" (Decoder.text depth)) (← leafField "before" depth)
      (← leafField "after" depth)
  | _ => fun _ => none

/-- An edit. -/
def decoder : Decoder Edit :=
  Decoder.choice fun depth name content => do
    Decoder.record (recordOf name) depth (← content)

end Edit

/-- An edit of a group together with whether it is one of several. -/
structure Operation where
  edit : Edit
  nested : Bool

/-- The form of an edit of a group. -/
def Operation.toJson (operation : Operation) : Json :=
  .obj [("edit", operation.edit.toJson), ("nested", .bool operation.nested)]

/-- An edit of a group. -/
def Operation.decoder : Decoder Operation :=
  Decoder.record fun depth => do
    let edit ← .required "edit" (Edit.decoder depth)
    let nested ← .required "nested" (Decoder.bool depth)
    return ⟨edit, nested⟩

/-- The edits of a group, each with whether it is one of several. -/
def Group.operations (group : Group) : List Operation :=
  group.edits.map fun edit => ⟨edit, group.nested⟩

/-- The form of the node that a group names to be announced again. -/
def Path.refreshToJson (target : Path) : Json := .obj [("target", target.toJson)]

/-- The node that a group names to be announced again. -/
def Path.refreshDecoder : Decoder Path :=
  Decoder.record fun depth => .required "target" (Path.decoder depth)

/-- The form of a group. -/
def Group.toJson (group : Group) : Json :=
  .obj ([("operations", .arr (group.operations.map Operation.toJson))] ++
    (group.refresh.map fun target => ("refresh", target.refreshToJson)).toList ++
    (group.description.map fun text => ("description", .str text)).toList)

end TreeEditor
