import TreeEditor.Json.Decoder
import TreeEditor.Path.Basic
import TreeEditor.Node.Json

/-!
# Paths as JSON

A slot is a choice, a step a record of a property and a slot, and a path the list of its steps.
-/

namespace TreeEditor

open Json

/-- The form of a slot. -/
def Slot.toJson : Slot → Json
  | placeholder => .str "placeholder"
  | optional => .str "optional"
  | list position => .obj [("list", .nat position)]
  | member block position =>
    .obj [("block", .obj [("block", .nat block), ("position", .nat position)])]

/-- The form of a step. -/
def Step.toJson (step : Step) : Json :=
  .obj [("property", .str step.property), ("slot", step.slot.toJson)]

/-- The form of a path. -/
def Path.toJson (path : Path) : Json := .arr (path.map Step.toJson)

/-- The form of the address of a property. -/
def BranchPath.toJson (branch : BranchPath) : Json :=
  .obj [("owner", branch.owner.toJson), ("property", .str branch.property)]

/-- A slot. -/
def Slot.decoder : Decoder Slot :=
  Decoder.choice fun depth name content =>
    match name, content with
    | "placeholder", content => if noContent false content then some .placeholder else none
    | "optional", content => if noContent false content then some .optional else none
    | "list", some content => (Decoder.position depth content).map .list
    | "block", some content =>
      Decoder.record (fun depth => do
        let block ← .required "block" (Decoder.position depth)
        let position ← .required "position" (Decoder.position depth)
        return .member block position) depth content
    | _, _ => none

/-- A step. -/
def Step.decoder : Decoder Step :=
  Decoder.record fun depth => do
    let property ← .required "property" (Decoder.text depth)
    let slot ← .required "slot" (Slot.decoder depth)
    return ⟨property, slot⟩

/-- A path. -/
def Path.decoder : Decoder Path := Decoder.list Step.decoder

/-- The address of a property. -/
def BranchPath.decoder : Decoder BranchPath :=
  Decoder.record fun depth => do
    let owner ← .required "owner" (Path.decoder depth)
    let property ← .required "property" (Decoder.text depth)
    return ⟨owner, property⟩

end TreeEditor
