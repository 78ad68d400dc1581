import TreeEditor.Node.Basic

/-!
# The shape of nodes

Reading a property as one of a given kind: there is a reading for each kind, and it fails when the
node has no property of that name or has one of another kind. A property with children can also be
opened, which gives what the reading gives together with a way to put something else in its place.
-/

namespace TreeEditor

/-- How a node can fail to have the shape that is asked of it. -/
inductive ShapeError where
  | missingProperty (kind property : String)
  | unexpectedKind (kind property : String) (expected found : PropertyKind)
  | unknownKind (kind : String)
  | emptyBlock (kind property : String) (block : Nat)
  | rejected (parent property child : String)
deriving DecidableEq

/-- The text of a fault of shape. -/
def ShapeError.message : ShapeError → String
  | missingProperty kind property => s!"Node `{kind}` has no property `{property}`"
  | unexpectedKind kind property expected found =>
    s!"Property `{property}` of `{kind}` is {found.name}, expected {expected.name}"
  | unknownKind kind => s!"Unknown node kind: {kind}"
  | emptyBlock kind property block => s!"Block {block} of `{kind}.{property}` has no members"
  | rejected parent property child =>
    s!"Property `{property}` of `{parent}` does not accept `{child}`"

namespace Node

/-- The property of a name, which must exist. -/
def require (node : Node) (name : String) : Except ShapeError (Property Node) :=
  match node.property? name with
  | some property => .ok property
  | none => .error (.missingProperty node.kind name)

/-- The fault of a property of another kind than the expected one. -/
def unexpected (node : Node) (name : String) (expected : PropertyKind)
    (found : Property Node) : ShapeError :=
  .unexpectedKind node.kind name expected found.kind

/-- The leaf of a value property. -/
def value (node : Node) (name : String) : Except ShapeError Leaf := do
  match ← node.require name with
  | .value leaf => return leaf
  | other => throw (node.unexpected name .value other)

/-- The node of a mandatory child. -/
def child (node : Node) (name : String) : Except ShapeError Node := do
  match ← node.require name with
  | .child child => return child
  | other => throw (node.unexpected name .placeholder other)

/-- Whether an optional child is assigned, and its item. -/
def optional (node : Node) (name : String) : Except ShapeError (Bool × Option Node) := do
  match ← node.require name with
  | .optional assigned item => return (assigned, item)
  | other => throw (node.unexpected name .optional other)

/-- The nodes of a list. -/
def list (node : Node) (name : String) : Except ShapeError (List Node) := do
  match ← node.require name with
  | .list nodes => return nodes
  | other => throw (node.unexpected name .list other)

/-- The blocks of a list of blocks. -/
def blockList (node : Node) (name : String) : Except ShapeError (List (Block Node Node)) := do
  match ← node.require name with
  | .blockList blocks => return blocks
  | other => throw (node.unexpected name .blockList other)

end Node

/-! ## Opening for writing -/

/-- A part of a node that can be overwritten. -/
structure Focus (α : Type) where
  /-- What the part is. -/
  here : α
  /-- The node with something else in the place of the part. -/
  fill : α → Node

/-- A part of a part that can itself be overwritten. -/
def Focus.inside {α : Type} (outer : Focus Node) (inner : Focus α) : Focus α :=
  ⟨inner.here, fun new => outer.fill (inner.fill new)⟩

namespace Node

section

variable {α : Type}

/-- The content of a property of an expected kind, opened: `content?` takes the content out of a
property of that kind, and `property` makes one of a content. -/
def openAs (expected : PropertyKind) (content? : Property Node → Option α)
    (property : α → Property Node) (node : Node) (name : String) :
    Except ShapeError (Focus α) :=
  match node.property? name with
  | none => .error (.missingProperty node.kind name)
  | some found =>
    match content? found with
    | some content => .ok ⟨content, fun new => node.set name (property new)⟩
    | none => .error (.unexpectedKind node.kind name expected found.kind)

end

/-- The node of a mandatory child, opened. -/
def openChild : Node → String → Except ShapeError (Focus Node) :=
  openAs .placeholder (fun | .child node => some node | _ => none) .child

/-- Whether an optional child is assigned, and its item, opened. -/
def openOptional : Node → String → Except ShapeError (Focus (Bool × Option Node)) :=
  openAs .optional (fun | .optional assigned item => some (assigned, item) | _ => none)
    fun content => .optional content.1 content.2

/-- The nodes of a list, opened. -/
def openList : Node → String → Except ShapeError (Focus (List Node)) :=
  openAs .list (fun | .list nodes => some nodes | _ => none) .list

/-- The blocks of a list of blocks, opened. -/
def openBlockList : Node → String → Except ShapeError (Focus (List (Block Node Node))) :=
  openAs .blockList (fun | .blockList blocks => some blocks | _ => none) .blockList

end Node

end TreeEditor
