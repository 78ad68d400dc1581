import TreeEditor.Node.Shape

/-!
# Grammars

A grammar says which properties of a node have children that take part in the editing, and which
nodes may stand under them. The free grammar takes every node as it is. A declared grammar knows
each kind of node from a schema: the properties that it must have, in an order, with their kinds
and the kinds of node they accept; further properties of a node are passed over.
-/

namespace TreeEditor

/-- A declared property of a kind of node. -/
structure Declaration where
  name : String
  kind : PropertyKind
  /-- The kinds of node that the property accepts; none means any. -/
  accepts : List String

/-- The declared properties of each kind of node. -/
structure Schema where
  kinds : Table String (List Declaration)

/-- A schema with one kind declared, in place of an earlier declaration of that kind. -/
def Schema.declare (schema : Schema) (kind : String) (declarations : List Declaration) : Schema :=
  ⟨Table.set kind declarations schema.kinds⟩

/-- The kinds of a schema in the order of their names. -/
def Schema.sorted (schema : Schema) : List (String × List Declaration) :=
  schema.kinds.mergeSort fun a b => a.1 ≤ b.1

/-- The declarations for a kind of node. -/
def Schema.declarations (schema : Schema) (kind : String) :
    Except ShapeError (List Declaration) :=
  match Table.get? kind schema.kinds with
  | some declarations => .ok declarations
  | none => .error (.unknownKind kind)

/-- What nodes a document may have. -/
inductive Grammar where
  | free
  | declared (schema : Schema)

namespace Grammar

/-- The property that a declaration asks for. -/
def declaredProperty {α : Type} (kind : String) (properties : List (String × Property α))
    (declaration : Declaration) : Except ShapeError (String × Property α) :=
  match Table.get? declaration.name properties with
  | none => .error (.missingProperty kind declaration.name)
  | some property =>
    if property.kind = declaration.kind then .ok (declaration.name, property)
    else .error (.unexpectedKind kind declaration.name declaration.kind property.kind)

/-- The properties with children of a node, in the order that the grammar gives them: as they stand
in the node, or as they are declared. -/
def browse {α : Type} (grammar : Grammar) (kind : String)
    (properties : List (String × Property α)) : Except ShapeError (List (String × Property α)) :=
  match grammar with
  | free => .ok (properties.filter fun entry => entry.2.kind.bearsChildren)
  | declared schema => do
    let declarations ← schema.declarations kind
    let found ← declarations.mapM (declaredProperty kind properties)
    return found.filter fun entry => entry.2.kind.bearsChildren

/-- The names and kinds of the properties with children of a node. -/
def shape (grammar : Grammar) (node : Node) : Except ShapeError (List (String × PropertyKind)) :=
  return (← grammar.browse node.kind node.properties).map fun entry => (entry.1, entry.2.kind)

/-- A child of a kind may stand under a property of a parent of a kind. -/
def accepts (grammar : Grammar) (parent property child : String) : Except ShapeError Unit :=
  match grammar with
  | free => .ok ()
  | declared schema => do
    let declarations ← schema.declarations parent
    match declarations.find? (·.name = property) with
    | none => .error (.missingProperty parent property)
    | some declaration =>
      if declaration.accepts = [] ∨ child ∈ declaration.accepts then .ok ()
      else .error (.rejected parent property child)

end Grammar

end TreeEditor
