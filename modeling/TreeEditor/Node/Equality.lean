import TreeEditor.Node.Basic

/-!
# Equality of documents

Two nodes are the same when their kinds are equal and each property of one has an equal
counterpart under the same name in the other. The order in which properties were declared does not
matter, everything else does: the order of children and blocks, headers, whether an optional child
is assigned, and the item that it retains.
-/

namespace TreeEditor

/-- Two lists are related item by item. -/
def relatedLists {α β : Type} (related : α → β → Bool) : List α → List β → Bool
  | [], [] => true
  | a :: as, b :: bs => related a b && relatedLists related as bs
  | _, _ => false

/-- Two optional values are both absent or are related. -/
def relatedItems {α β : Type} (related : α → β → Bool) : Option α → Option β → Bool
  | none, none => true
  | some a, some b => related a b
  | _, _ => false

/-- Two headers have the same replication and related nodes. -/
def Header.related {α β : Type} (related : α → β → Bool) (a : Header α) (b : Header β) : Bool :=
  a.replication = b.replication && related a.pattern b.pattern && related a.source b.source

/-- Two blocks have related headers and related members. -/
def Block.related {α β : Type} (related : α → β → Bool) (a : Block α α) (b : Block β β) : Bool :=
  a.header.related related b.header && relatedLists related a.members b.members

/-- Two properties are of one kind and have related contents. -/
def Property.related {α β : Type} (related : α → β → Bool) : Property α → Property β → Bool
  | .value a, .value b => a = b
  | .child a, .child b => related a b
  | .optional assigned a, .optional assigned' b =>
    assigned = assigned' && relatedItems related a b
  | .list as, .list bs => relatedLists related as bs
  | .blockList as, .blockList bs => relatedLists (Block.related related) as bs
  | _, _ => false

/-- Two nodes are the same, whatever the order of their properties. -/
def Node.same (a : Node) : Node → Bool :=
  a.fold fun kind properties b =>
    kind = b.kind && properties.length = b.properties.length &&
      properties.all fun entry =>
        match b.property? entry.1 with
        | some property => entry.2.related (fun child => child.2) property
        | none => false

/-- Two headers are the same. -/
def Header.same (a b : Header Node) : Bool := a.related Node.same b

/-- Two blocks are the same. -/
def Block.same (a b : Block Node Node) : Bool := a.related Node.same b

/-- Two optional nodes are the same. -/
def sameItem (a b : Option Node) : Bool := relatedItems Node.same a b

end TreeEditor
