import TreeEditor.Node.Json
import TreeEditor.Script.Basic

/-!
# Scripts as JSON

A script is a list of instructions. An instruction is an object whose member `op` names it and
whose other members are what it needs, or an array of its name and what it needs in order. All of
an instruction is read, further members included, so nothing in it may be garbled or nest too deep.
-/

namespace TreeEditor

open Json

namespace Instruction

/-- The form of an instruction. -/
def toJson (instruction : Instruction) : Json :=
  .obj (("op", .str instruction.name) ::
    match instruction with
    | insert path node | replace path node => [("path", .str path), ("node", node.toJson)]
    | remove path | unassign path => [("path", .str path)]
    | move path delta => [("path", .str path), ("delta", .int delta)]
    | assign path node => [("path", .str path), ("node", .ofOption (node.map Node.toJson))]
    | insertBlock branch block content =>
      [("inner", .str branch), ("block", .nat block), ("content", content.toJson)]
    | removeBlock branch block | mergeBlocks branch block =>
      [("inner", .str branch), ("block", .nat block)]
    | splitBlock branch block position =>
      [("inner", .str branch), ("block", .nat block), ("position", .nat position)]
    | moveBlock branch block delta =>
      [("inner", .str branch), ("block", .nat block), ("delta", .int delta)]
    | changeReplication branch block replication =>
      [("inner", .str branch), ("block", .nat block), ("replication", replication.toJson)]
    | setValue path property value =>
      [("path", .str path), ("property", .str property), ("value", value.toJson)]
    | beginBatch description => [("description", .ofOption (description.map .str))]
    | undo | redo | endBatch | abortBatch => [])

/-- A text that an instruction needs. -/
def textField (name : String) (depth : Nat) : Record String :=
  .required name (Decoder.text depth)

/-- A position that an instruction needs. -/
def positionField (name : String) (depth : Nat) : Record Nat :=
  .required name (Decoder.position depth)

/-- A distance that an instruction needs. -/
def deltaField (depth : Nat) : Record Int := .required "delta" (Decoder.distance depth)

/-- A node that an instruction needs. -/
def nodeField (depth : Nat) : Record Node := .required "node" (Node.decoder true depth)

/-- What an instruction of a name needs. -/
def recordOf (name : String) (depth : Nat) : Record Instruction :=
  match name with
  | "insert" => do return insert (← textField "path" depth) (← nodeField depth)
  | "remove" => do return remove (← textField "path" depth)
  | "replace" => do return replace (← textField "path" depth) (← nodeField depth)
  | "move" => do return move (← textField "path" depth) (← deltaField depth)
  | "assign" => do
    return assign (← textField "path" depth)
      (← .defaulted "node" none (Decoder.nullable (Node.decoder true) depth))
  | "unassign" => do return unassign (← textField "path" depth)
  | "insertBlock" => do
    return insertBlock (← textField "inner" depth) (← positionField "block" depth)
      (← .required "content" (Block.decoder true depth))
  | "removeBlock" => do
    return removeBlock (← textField "inner" depth) (← positionField "block" depth)
  | "splitBlock" => do
    return splitBlock (← textField "inner" depth) (← positionField "block" depth)
      (← positionField "position" depth)
  | "mergeBlocks" => do
    return mergeBlocks (← textField "inner" depth) (← positionField "block" depth)
  | "moveBlock" => do
    return moveBlock (← textField "inner" depth) (← positionField "block" depth)
      (← deltaField depth)
  | "changeReplication" => do
    return changeReplication (← textField "inner" depth) (← positionField "block" depth)
      (← .required "replication" (Replication.decoder true depth))
  | "setValue" => do
    return setValue (← textField "path" depth) (← textField "property" depth)
      (← .required "value" (Leaf.decoder depth))
  | "undo" => return undo
  | "redo" => return redo
  | "beginBatch" => do
    return beginBatch
      (← .defaulted "description" none (Decoder.nullable Decoder.text depth))
  | "endBatch" => return endBatch
  | "abortBatch" => return abortBatch
  | _ => fun _ => none

/-- An instruction. -/
def decoder : Decoder Instruction := fun depth value =>
  if value.fits depth then
    match value with
    | .obj members =>
      match members.filter (·.1 = "op") with
      | [(_, .str name)] =>
        -- The name may stand anywhere; the other members keep their order.
        Decoder.record (recordOf name) depth (.obj (members.filter (·.1 ≠ "op")))
      | _ => none
    | .arr (.str name :: items) => Decoder.record (recordOf name) depth (.arr items)
    | _ => none
  else
    none

end Instruction

/-- A script. -/
def Script.decoder : Decoder (List Instruction) := Decoder.list Instruction.decoder

end TreeEditor
