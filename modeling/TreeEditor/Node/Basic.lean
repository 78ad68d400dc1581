import TreeEditor.Table

/-!
# Nodes

A document is a tree of nodes. A node has a kind and a table of named properties; a property holds
a leaf value, a child, an optional child, a list of children or a list of blocks, and a block is a
run of member nodes under a header of its own.

A property is written over the type of the children it holds, so that it can hold nodes, or nodes
together with what has been computed for them. `Node.fold` is the recursion over a node in these
terms: everything that is computed by walking a document is an instance of it.
-/

namespace TreeEditor

/-- Whether the members of a block are repeated. -/
inductive Replication where
  | normal
  | replicated
deriving DecidableEq, Repr, Inhabited

/-- A value without children. -/
inductive Leaf where
  | boolean (value : Bool)
  | integer (value : Int64)
  | text (value : String)
deriving DecidableEq, Inhabited

/-- What a block is, apart from its members. -/
structure Header (α : Type) where
  replication : Replication
  pattern : α
  source : α

/-- A run of members under one header. -/
structure Block (α μ : Type) where
  header : Header α
  members : List μ

/-- The value of a property whose children are of type `α`. -/
inductive Property (α : Type) where
  | value (leaf : Leaf)
  | child (node : α)
  /-- An optional child that is not assigned may still retain an item. -/
  | optional (assigned : Bool) (item : Option α)
  | list (nodes : List α)
  | blockList (blocks : List (Block α α))

/-- A node of a document. -/
inductive Node where
  | mk (kind : String) (properties : List (String × Property Node))

/-- The kinds of property. -/
inductive PropertyKind where
  | value
  | placeholder
  | optional
  | list
  | blockList
deriving DecidableEq, Repr

namespace PropertyKind

/-- The name of a kind of property. -/
def name : PropertyKind → String
  | value => "Value"
  | placeholder => "Placeholder"
  | optional => "Optional"
  | list => "List"
  | blockList => "BlockList"

/-- Properties of every kind but `value` have children. -/
def bearsChildren (kind : PropertyKind) : Bool := kind ≠ value

end PropertyKind

namespace Replication

/-- The name of a replication status. -/
def name : Replication → String
  | normal => "Normal"
  | replicated => "Replicated"

end Replication

/-! ## Children -/

/-- A header with its two nodes replaced. -/
def Header.map {α β : Type} (f : α → β) (header : Header α) : Header β :=
  ⟨header.replication, f header.pattern, f header.source⟩

/-- A block with all its nodes replaced. -/
def Block.map {α β : Type} (f : α → β) (block : Block α α) : Block β β :=
  ⟨block.header.map f, block.members.map f⟩

namespace Property

variable {α β : Type}

/-- The kind of a property. -/
def kind : Property α → PropertyKind
  | value _ => .value
  | child _ => .placeholder
  | optional _ _ => .optional
  | list _ => .list
  | blockList _ => .blockList

/-- A property with every child replaced. -/
def map (f : α → β) : Property α → Property β
  | value leaf => value leaf
  | child node => child (f node)
  | optional assigned item => optional assigned (item.map f)
  | list nodes => list (nodes.map f)
  | blockList blocks => blockList (blocks.map (Block.map f))

/-- All nodes under a property: retained items, patterns and sources are among them. -/
def nodes : Property α → List α
  | value _ => []
  | child node => [node]
  | optional _ item => item.toList
  | list nodes => nodes
  | blockList blocks =>
    blocks.flatMap fun block => block.header.pattern :: block.header.source :: block.members

end Property

namespace Node

/-- The kind of a node. -/
def kind : Node → String
  | mk kind _ => kind

/-- The properties of a node in the order of their declaration. -/
def properties : Node → List (String × Property Node)
  | mk _ properties => properties

/-- The property of a name. -/
def property? (node : Node) (name : String) : Option (Property Node) :=
  Table.get? name node.properties

/-- A node without properties. -/
def bare (kind : String) : Node := mk kind []

/-- A node with one property set. -/
def set (node : Node) (name : String) (property : Property Node) : Node :=
  mk node.kind (Table.set name property node.properties)

/-- The text of a value property, if it holds a text. -/
def text? (node : Node) (name : String) : Option String :=
  match node.property? name with
  | some (.value (.text text)) => some text
  | _ => none

/-! ## Recursion -/

section Fold

variable {β : Type} (f : String → List (String × Property (Node × β)) → β)

mutual

/-- What `f` computes for a node, given its kind and its properties, in which every child stands
together with what `f` computes for it. -/
def fold : Node → β
  | mk kind properties => f kind (foldProperties properties)

/-- Every property with the results of its children. -/
def foldProperties : List (String × Property Node) → List (String × Property (Node × β))
  | [] => []
  | (name, property) :: rest => (name, foldProperty property) :: foldProperties rest

/-- A property with the results of its children. -/
def foldProperty : Property Node → Property (Node × β)
  | .value leaf => .value leaf
  | .child node => .child (node, node.fold)
  | .optional assigned item => .optional assigned (foldItem item)
  | .list nodes => .list (foldNodes nodes)
  | .blockList blocks => .blockList (foldBlocks blocks)

/-- An item with its result. -/
def foldItem : Option Node → Option (Node × β)
  | none => none
  | some node => some (node, node.fold)

/-- Nodes with their results. -/
def foldNodes : List Node → List (Node × β)
  | [] => []
  | node :: rest => (node, node.fold) :: foldNodes rest

/-- Blocks with the results of their nodes. -/
def foldBlocks : List (Block Node Node) → List (Block (Node × β) (Node × β))
  | [] => []
  | ⟨⟨replication, pattern, source⟩, members⟩ :: rest =>
    ⟨⟨replication, (pattern, pattern.fold), (source, source.fold)⟩, foldNodes members⟩ ::
      foldBlocks rest

end

/-- A child together with what `f` computes for it. -/
def withResult (node : Node) : Node × β := (node, node.fold f)

theorem foldItem_eq (item : Option Node) : foldItem f item = item.map (withResult f) := by
  cases item <;> rfl

theorem foldNodes_eq (nodes : List Node) : foldNodes f nodes = nodes.map (withResult f) := by
  induction nodes with
  | nil => rfl
  | cons node rest ih => simp [foldNodes, withResult, ih]

theorem foldBlocks_eq (blocks : List (Block Node Node)) :
    foldBlocks f blocks = blocks.map (Block.map (withResult f)) := by
  induction blocks with
  | nil => rfl
  | cons block rest ih =>
    obtain ⟨⟨replication, pattern, source⟩, members⟩ := block
    simp [foldBlocks, Block.map, Header.map, withResult, foldNodes_eq, ih]

theorem foldProperty_eq (property : Property Node) :
    foldProperty f property = property.map (withResult f) := by
  cases property <;>
    simp [foldProperty, Property.map, withResult, foldItem_eq, foldNodes_eq, foldBlocks_eq]

/-- The equation of the recursion: `f` is given each property with its children and their
results. -/
theorem fold_mk (kind : String) (properties : List (String × Property Node)) :
    (mk kind properties).fold f =
      f kind (properties.map fun entry => (entry.1, entry.2.map (withResult f))) := by
  have h : foldProperties f properties =
      properties.map fun entry => (entry.1, entry.2.map (withResult f)) := by
    induction properties with
    | nil => rfl
    | cons entry rest ih =>
      obtain ⟨name, property⟩ := entry
      simp [foldProperties, foldProperty_eq, ih]
  rw [fold, h]

end Fold

/-- The results for all children of some properties, retained items, patterns and sources
included, in the order of the document. -/
def results {β : Type} (properties : List (String × Property (Node × β))) : List β :=
  properties.flatMap fun entry => entry.2.nodes.map Prod.snd

/-- The number of nodes in a document, patterns, sources and retained items included. -/
def count (node : Node) : Nat :=
  node.fold fun _ properties => 1 + (results properties).foldr (· + ·) 0

end Node

/-- A header with a pattern and a source that hold an empty text. -/
def Header.blank : Header Node :=
  ⟨.normal, (Node.bare "Pattern").set "text" (.value (.text "")),
    (Node.bare "Identifier").set "text" (.value (.text ""))⟩

/-- A block of members under a blank header. -/
def Block.plain (members : List Node) : Block Node Node := ⟨.blank, members⟩

namespace Node

instance : Inhabited Node := ⟨bare ""⟩

end Node

end TreeEditor
