import TreeEditor.Proofs.Effect
import TreeEditor.Document.Change

/-!
# Changes of a property

What an edit does to a property of a node (`Edit.alter`) is what the changes of nodes do, which read
the property under its name and put the changed one in its place. None of them is refused where the
edit has an effect.
-/

namespace TreeEditor.Node

variable {node : Node} {name : String} {P P' : Property Node}

/-- The nodes of a list can be changed. -/
theorem modifyList_eq_ok {nodes nodes' : List Node}
    {change : List Node → Except Refusal (List Node)}
    (h : node.property? name = some (.list nodes)) (hchange : change nodes = .ok nodes') :
    node.modifyList name change = .ok (node.set name (.list nodes')) := by
  rw [modifyList, list, require_eq_ok h, ok_bind]
  dsimp only
  rw [pure_eq_ok, refuseShape_ok, ok_bind, hchange]
  rfl

/-- The blocks of a list of blocks can be changed. -/
theorem modifyBlocks_eq_ok {blocks blocks' : List (Block Node Node)}
    {change : List (Block Node Node) → Except Refusal (List (Block Node Node))}
    (h : node.property? name = some (.blockList blocks)) (hchange : change blocks = .ok blocks') :
    node.modifyBlocks name change = .ok (node.set name (.blockList blocks')) := by
  rw [modifyBlocks, blockList, require_eq_ok h, ok_bind]
  dsimp only
  rw [pure_eq_ok, refuseShape_ok, ok_bind, hchange]
  rfl

/-- The leaf of a value property can be changed. -/
theorem setValue_eq_ok {before : Leaf} (h : node.property? name = some (.value before))
    (after : Leaf) : node.setValue name after = .ok (node.set name (.value after)) := by
  rw [setValue, value_eq_ok.mpr h]
  rfl

/-- An optional child can be changed. -/
theorem setOptional_eq_ok {assigned : Bool} {item : Option Node}
    (h : node.property? name = some (.optional assigned item)) (assigned' : Bool)
    (item' : Option Node) : node.setOptional name assigned' item' =
      .ok (node.set name (.optional assigned' item')) := by
  rw [setOptional, optional_eq_ok.mpr h]
  rfl

/-- A node is put into a property as it is put into a node. -/
theorem insertChild_eq_ok {slot : Slot} {child : Node} (h : node.property? name = some P)
    (hinsert : P.insertAt slot child = some P') :
    insertChild name slot child node = .ok (node.set name P') := by
  cases P with
  | list nodes =>
    cases slot with
    | list position =>
      obtain ⟨nodes', hnodes', rfl⟩ := Option.map_eq_some_iff.mp hinsert
      exact modifyList_eq_ok h (toOption_eq_some.mp hnodes')
    | _ => cases hinsert
  | blockList blocks =>
    cases slot with
    | member block position =>
      obtain ⟨blocks', hblocks', rfl⟩ := Option.map_eq_some_iff.mp hinsert
      exact modifyBlocks_eq_ok h (toOption_eq_some.mp hblocks')
    | _ => cases hinsert
  | _ => cases hinsert

/-- A node is taken out of a property as it is taken out of a node. -/
theorem removeChild_eq_ok {slot : Slot} {child : Node} (h : node.property? name = some P)
    (hremove : P.removeAt slot = some (child, P')) :
    node.removeChild name slot = .ok (node.set name P') := by
  cases P with
  | list nodes =>
    cases slot with
    | list position =>
      obtain ⟨result, hresult, heq⟩ := Option.map_eq_some_iff.mp hremove
      cases heq
      refine modifyList_eq_ok h ?_
      rw [toOption_eq_some.mp hresult]
      rfl
    | _ => cases hremove
  | blockList blocks =>
    cases slot with
    | member block position =>
      obtain ⟨result, hresult, heq⟩ := Option.map_eq_some_iff.mp hremove
      cases heq
      refine modifyBlocks_eq_ok h ?_
      rw [toOption_eq_some.mp hresult]
      rfl
    | _ => cases hremove
  | _ => cases hremove

/-- A node is moved in a property as it is moved in a node. -/
theorem moveChild_eq_ok {slot : Slot} {delta : Int} (h : node.property? name = some P)
    (hmove : P.moveAt slot delta = some P') :
    node.moveChild name slot delta = .ok (node.set name P') := by
  cases P with
  | list nodes =>
    cases slot with
    | list position =>
      obtain ⟨result, hresult, rfl⟩ := Option.map_eq_some_iff.mp hmove
      refine modifyList_eq_ok h ?_
      rw [toOption_eq_some.mp hresult]
      rfl
    | _ => cases hmove
  | blockList blocks =>
    cases slot with
    | member block position =>
      obtain ⟨result, hresult, rfl⟩ := Option.map_eq_some_iff.mp hmove
      refine modifyBlocks_eq_ok h ?_
      rw [toOption_eq_some.mp hresult]
      rfl
    | _ => cases hmove
  | _ => cases hmove

end TreeEditor.Node
