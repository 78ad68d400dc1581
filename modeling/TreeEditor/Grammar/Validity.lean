import TreeEditor.Grammar.Basic
import TreeEditor.Slot

/-!
# Validity

A document is valid under a grammar when every node that takes part in the editing has the shape
that the grammar asks for, every child is accepted by the property it stands under, and no block is
empty. Patterns, sources and retained items take no part.
-/

namespace TreeEditor

/-- The position of the first block without members. -/
def firstEmptyBlock {α μ : Type} (blocks : List (Block α μ)) : Option Nat :=
  blocks.findIdx? fun block => block.members.isEmpty

/-- A list of blocks has no empty block. -/
def Property.checkBlocks {α : Type} (kind name : String) : Property α → Except ShapeError Unit
  | .blockList blocks =>
    match firstEmptyBlock blocks with
    | some block => .error (.emptyBlock kind name block)
    | none => .ok ()
  | _ => .ok ()

namespace Grammar

/-- Every child of a property is accepted under it and valid itself; the first fault in the order
of the document is reported. -/
def checkChildren (grammar : Grammar) (kind name : String)
    (children : List (Slot × Node × Except ShapeError Unit)) : Except ShapeError Unit :=
  children.forM fun (_, child, verdict) => do
    grammar.accepts kind name child.kind
    verdict

/-- A node and everything under it that takes part in the editing is valid. -/
def validate (grammar : Grammar) (node : Node) : Except ShapeError Unit :=
  node.fold fun kind properties => do
    (← grammar.browse kind properties).forM fun (name, property) => do
      property.checkBlocks kind name
      grammar.checkChildren kind name property.children

end Grammar

end TreeEditor
