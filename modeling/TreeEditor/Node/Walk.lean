import TreeEditor.Node.Json
import TreeEditor.Json.Printer

/-!
# Walking a document

The steps of a walk over a document in the order of declaration, every node before what is under
it. In a block the pattern comes first, then the source, then the members; a walk may also leave
pattern and source out.
-/

namespace TreeEditor

/-- A step of a walk. -/
inductive Visit where
  | enter (kind : String)
  | property (name : String) (kind : PropertyKind)
  | leaf (name : String) (value : Leaf)
  | block (replication : Replication) (members : Nat)
  | leave

namespace Visit

/-- A step as a line of text. -/
def text : Visit → String
  | enter kind => "node " ++ kind
  | property name kind => "property " ++ name ++ " " ++ kind.name
  | leaf name value => "leaf " ++ name ++ " " ++ value.toJson.compact
  | block replication members => "block " ++ replication.name ++ " " ++ toString members
  | leave => "end"

end Visit

/-- The steps for a property, given the steps for its children. -/
def Property.walk {α : Type} (membersOnly : Bool) (child : α → List Visit) (name : String)
    (property : Property α) : List Visit :=
  .property name property.kind ::
    match property with
    | .value leaf => [.leaf name leaf]
    | .blockList blocks =>
      blocks.flatMap fun block =>
        .block block.header.replication block.members.length ::
          ((if membersOnly then [] else [block.header.pattern, block.header.source]) ++
            block.members).flatMap child
    | other => other.nodes.flatMap child

/-- The steps of a walk over a node. -/
def Node.walk (membersOnly : Bool) (node : Node) : List Visit :=
  node.fold fun kind properties =>
    .enter kind ::
      (properties.flatMap fun entry => entry.2.walk membersOnly Prod.snd entry.1) ++ [.leave]

/-- The number of leaves in a document, those of patterns, sources and retained items included. -/
def Node.leaves (node : Node) : Nat :=
  (node.walk false).countP fun
    | .leaf _ _ => true
    | _ => false

end TreeEditor
