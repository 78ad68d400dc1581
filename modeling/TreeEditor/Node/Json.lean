import TreeEditor.Json.Decoder
import TreeEditor.Node.Basic

/-!
# Documents as JSON

The JSON form of a node is a record of its kind and its properties, the latter being left off when
there are none. A property is a choice named for its kind; an unassigned optional child without a
retained item leaves the item off. A leaf is a plain truth value, integer or text.
-/

namespace TreeEditor

open Json

/-! ## Encoding -/

/-- The form of a leaf. -/
def Leaf.toJson : Leaf → Json
  | boolean value => .bool value
  | integer value => .int value.toInt
  | text value => .str value

/-- The form of a replication status. -/
def Replication.toJson : Replication → Json
  | normal => .str "normal"
  | replicated => .str "replicated"

/-- The form of a kind of property. -/
def PropertyKind.toJson : PropertyKind → Json
  | value => .str "value"
  | placeholder => .str "placeholder"
  | optional => .str "optional"
  | list => .str "list"
  | blockList => .str "blockList"

/-- The fields of a header. -/
def Header.fields {α : Type} (child : α → Json) (header : Header α) : List (String × Json) :=
  [("replication", header.replication.toJson), ("pattern", child header.pattern),
    ("source", child header.source)]

/-- The form of a block, given the form of its nodes. -/
def Block.encode {α : Type} (child : α → Json) (block : Block α α) : Json :=
  .obj (block.header.fields child ++ [("nodes", .arr (block.members.map child))])

/-- The form of an optional child: whether it is assigned, and its item if there is one. -/
def encodeOptional {α : Type} (child : α → Json) (assigned : Bool) (item : Option α) : Json :=
  .obj (("assigned", .bool assigned) :: (item.map fun node => ("item", child node)).toList)

/-- The form of a property, given the form of its children. -/
def Property.encode {α : Type} (child : α → Json) : Property α → Json
  | .value leaf => .obj [("value", leaf.toJson)]
  | .child node => .obj [("child", child node)]
  | .optional assigned item => .obj [("optional", encodeOptional child assigned item)]
  | .list nodes => .obj [("list", .arr (nodes.map child))]
  | .blockList blocks => .obj [("blockList", .arr (blocks.map (Block.encode child)))]

/-- The form of a node. -/
def Node.toJson (node : Node) : Json :=
  node.fold fun kind properties =>
    .obj (("kind", .str kind) ::
      if properties.isEmpty then []
      else [("properties",
        .obj (properties.map fun entry => (entry.1, entry.2.encode Prod.snd)))])

/-- The form of a property of nodes. -/
def Property.toJson (property : Property Node) : Json := property.encode Node.toJson

/-- The form of a block of nodes. -/
def Block.toJson (block : Block Node Node) : Json := block.encode Node.toJson

/-- The form of a header. -/
def Header.toJson (header : Header Node) : Json := .obj (header.fields Node.toJson)

/-! ## Decoding

`lenient` says whether an empty object, like `null`, may stand for the content of an alternative
that has none. -/

/-- A leaf. -/
def Leaf.decoder : Decoder Leaf
  | _, .bool value => some (.boolean value)
  | depth, .int value => (Decoder.distance depth (.int value)).map (.integer ∘ Int64.ofInt)
  | _, .str value => some (.text value)
  | _, _ => none

/-- The content of an alternative that has none. -/
def noContent (lenient : Bool) : Option Json → Bool
  | none | some .null => true
  | some (.obj []) => lenient
  | _ => false

/-- A replication status. -/
def Replication.decoder (lenient : Bool) : Decoder Replication :=
  Decoder.choice fun _ name content =>
    if noContent lenient content then
      match name with
      | "normal" => some .normal
      | "replicated" => some .replicated
      | _ => none
    else none

/-- A kind of property. -/
def PropertyKind.decoder : Decoder PropertyKind :=
  Decoder.choice fun _ name content =>
    if noContent false content then
      match name with
      | "value" => some .value
      | "placeholder" => some .placeholder
      | "optional" => some .optional
      | "list" => some .list
      | "blockList" => some .blockList
      | _ => none
    else none

section

variable {α : Type} (lenient : Bool) (child : Decoder α)

/-- The fields of a header. -/
def Header.recordOf (depth : Nat) : Record (Header α) := do
  let replication ← .defaulted "replication" .normal (Replication.decoder lenient depth)
  let pattern ← .required "pattern" (child depth)
  let source ← .required "source" (child depth)
  return ⟨replication, pattern, source⟩

/-- A block, given how its nodes are decoded. -/
def Block.decoderOf : Decoder (Block α α) :=
  Decoder.record fun depth => do
    let header ← Header.recordOf lenient child depth
    let members ← .required "nodes" (Decoder.list child depth)
    return ⟨header, members⟩

/-- An optional child: whether it is assigned, and its item. -/
def decodeOptional : Decoder (Bool × Option α) :=
  Decoder.record fun depth => do
    let assigned ← .defaulted "assigned" false (Decoder.bool depth)
    let item ← .defaulted "item" none (Decoder.nullable child depth)
    return (assigned, item)

/-- A property, given how its children are decoded. -/
def Property.decoderOf : Decoder (Property α) :=
  Decoder.choice fun depth name content => do
    let content ← content
    match name with
    | "value" => (Leaf.decoder depth content).map .value
    | "child" => (child depth content).map .child
    | "optional" =>
      (decodeOptional child depth content).map fun (assigned, item) => .optional assigned item
    | "list" => (Decoder.list child depth content).map .list
    | "blockList" => (Decoder.list (Block.decoderOf lenient child) depth content).map .blockList
    | _ => none

end

/-- A node that has fewer than `generations` generations under it. -/
def Node.decodeWithin (lenient : Bool) : (generations : Nat) → Decoder Node
  | 0 => fun _ _ => none
  | generations + 1 =>
    Decoder.record fun depth => do
      let kind ← .required "kind" (Decoder.text depth)
      let properties ← .defaulted "properties" []
        (Decoder.table (Property.decoderOf lenient (decodeWithin lenient generations)) depth)
      return .mk kind properties

/-- A node. Each generation nests at least one object, so the limit of depth bounds them too. -/
def Node.decoder (lenient : Bool) : Decoder Node :=
  fun depth value => Node.decodeWithin lenient depth depth value

/-- A property of nodes. -/
def Property.decoder : Decoder (Property Node) := Property.decoderOf false (Node.decoder false)

/-- A block of nodes. -/
def Block.decoder (lenient : Bool) : Decoder (Block Node Node) :=
  Block.decoderOf lenient (Node.decoder lenient)

/-- A header. -/
def Header.decoder : Decoder (Header Node) :=
  Decoder.record (Header.recordOf false (Node.decoder false))

end TreeEditor
