import TreeEditor.Proofs.Change
import TreeEditor.Proofs.Writing
import TreeEditor.Editor.Apply

/-!
# Reading back a node that was written

When a node has been put into the document the states for it are grown for what the document has at
its path, which is read once more. Nothing can go wrong there: what is read back is the node that
was put in (`Node.descend_of_modifyAt`), at the slot of an insertion, of a replacement and of an
assignment, and at every position of a block. So the members of a new block can be grown from the
content that the edit names (`Editor.growMembers_eq`). As with writing, nothing is asked of the
document.
-/

namespace TreeEditor

namespace Node

variable {node node' child : Node} {name : String} {slot : Slot} {path : Path}

/-- Where a node was changed the changed one is found. -/
theorem descend_of_modifyAt {change : Node → Except Refusal Node}
    (h : node.modifyAt change path = .ok node') :
    ∃ found new, change found = .ok new ∧ node'.descend path = .ok new := by
  unfold modifyAt at h
  obtain ⟨place, hplace, h⟩ := bind_eq_ok.mp h
  obtain ⟨new, hchange, h⟩ := bind_eq_ok.mp h
  cases h
  rw [openAt_eq] at hplace
  cases hfound : node.descend path with
  | error reason => rw [hfound] at hplace; cases hplace
  | ok found =>
    rw [hfound] at hplace
    cases hplace
    exact ⟨found, new, hchange, descend_put hfound new⟩

/-- Below a changed node the steps lead on from it. -/
theorem descend_child_of_modifyAt {change : Node → Except Refusal Node} {step : Step}
    (h : node.modifyAt change path = .ok node')
    (hstep : ∀ found new, change found = .ok new → new.step step = .ok child) :
    node'.descend (path ++ [step]) = .ok child := by
  obtain ⟨found, new, hchange, hfound⟩ := descend_of_modifyAt h
  rw [descend_append, hfound, ok_bind, descend, hstep found new hchange]
  rfl

/-- A slot of a property that was set is a slot of the node. -/
theorem step_set {P : Property Node} (h : P.childAt? slot = some child) :
    (node.set name P).step ⟨name, slot⟩ = .ok child :=
  step_eq_ok.mpr ⟨P, by rw [property?_set, if_pos rfl], h⟩

/-- A list that is changed is set to what the change makes of it. -/
theorem exists_of_modifyList {change : List Node → Except Refusal (List Node)}
    (h : node.modifyList name change = .ok node') :
    ∃ nodes nodes', change nodes = .ok nodes' ∧ node' = node.set name (.list nodes') := by
  obtain ⟨nodes, -, h⟩ := bind_eq_ok.mp h
  obtain ⟨nodes', hchange, h⟩ := bind_eq_ok.mp h
  cases h
  exact ⟨nodes, nodes', hchange, rfl⟩

/-- A list of blocks that is changed is set to what the change makes of it. -/
theorem exists_of_modifyBlocks
    {change : List (Block Node Node) → Except Refusal (List (Block Node Node))}
    (h : node.modifyBlocks name change = .ok node') :
    ∃ blocks blocks', change blocks = .ok blocks' ∧
      node' = node.set name (.blockList blocks') := by
  obtain ⟨blocks, -, h⟩ := bind_eq_ok.mp h
  obtain ⟨blocks', hchange, h⟩ := bind_eq_ok.mp h
  cases h
  exact ⟨blocks, blocks', hchange, rfl⟩

/-- An inserted child is in its slot. -/
theorem step_of_insertChild (h : insertChild name slot child node = .ok node') :
    node'.step ⟨name, slot⟩ = .ok child := by
  cases slot with
  | list position =>
    obtain ⟨nodes, nodes', hinsert, rfl⟩ := exists_of_modifyList h
    obtain ⟨hle, rfl⟩ := insertItem_eq_ok.mp hinsert
    exact step_set (List.getElem?_insertIdx_self.trans (if_pos hle))
  | member block position =>
    obtain ⟨blocks, blocks', hinsert, rfl⟩ := exists_of_modifyBlocks h
    obtain ⟨before, content, after, rfl, rfl, hle, rfl⟩ := Blocks.insertMember_eq_ok.mp hinsert
    refine step_set ?_
    simp [Property.childAt?, List.getElem?_insertIdx_self, hle]
  | _ => cases h

/-- The item of an assigned optional child is in its slot. -/
theorem step_of_setOptional (h : node.setOptional name true (some child) = .ok node') :
    node'.step ⟨name, .optional⟩ = .ok child := by
  obtain ⟨_, -, h⟩ := bind_eq_ok.mp h
  cases h
  exact step_set rfl

/-- The members of an inserted block are in its slots. -/
theorem step_of_insertBlock {block position : Nat} {content : Block Node Node}
    (h : node.modifyBlocks name (Blocks.insertBlock block content) = .ok node')
    (hchild : content.members[position]? = some child) :
    node'.step ⟨name, .member block position⟩ = .ok child := by
  obtain ⟨blocks, blocks', hinsert, rfl⟩ := exists_of_modifyBlocks h
  obtain ⟨hle, rfl⟩ := insertItem_eq_ok.mp hinsert
  refine step_set ?_
  simp [Property.childAt?, List.getElem?_insertIdx_self, hle, hchild]

end Node

namespace Editor

variable {editor : Editor} {branch : BranchPath} {slot : Slot} {document node : Node}

/-- A state is grown for the node that is found at its path. -/
theorem growthAt_of_descend {path : Path} (h : document.descend path = .ok node) :
    editor.growthAt document path = .ok (editor.grammar.growth node) := by
  rw [growthAt, h]
  rfl

/-- The state of an inserted node is grown for that node. -/
theorem growthAt_insert (h : editor.changeDocument branch.owner
      (Node.insertChild branch.property slot node) = .ok document) :
    editor.growthAt document (branch.child slot) = .ok (editor.grammar.growth node) :=
  growthAt_of_descend (Node.descend_child_of_modifyAt (orBreak_eq_ok.mp h)
    fun _ _ => Node.step_of_insertChild)

/-- The state of a node that replaces another one is grown for that node. -/
theorem growthAt_replace (h : editor.changeDocument (branch.child slot) (fun _ => .ok node) =
      .ok document) :
    editor.growthAt document (branch.child slot) = .ok (editor.grammar.growth node) := by
  obtain ⟨_, _, hnew, hfound⟩ := Node.descend_of_modifyAt (orBreak_eq_ok.mp h)
  cases hnew
  exact growthAt_of_descend hfound

/-- The state of an assigned child is grown for the item. -/
theorem growthAt_assign (h : editor.changeDocument branch.owner
      (Node.setOptional branch.property true (some node)) = .ok document) :
    editor.growthAt document (branch.child .optional) = .ok (editor.grammar.growth node) :=
  growthAt_of_descend (Node.descend_child_of_modifyAt (orBreak_eq_ok.mp h)
    fun _ _ => Node.step_of_setOptional)

/-- Adds the states of given members of a block, each for its node. -/
def growNodes (editor : Editor) (owner : Handle) (property : String) (block : Nat) :
    List (Node × Nat) → Store → Except Failure Store
  | [], store => .ok store
  | (node, position) :: rest, store => do
    let place := Place.within owner property (.member block position)
    let (handle, store) := store.allocate place
    let store ← store.modifyBlocks owner property (Blocks.insertMember block position handle)
    let store ← (store.enroll place handle).settle place handle
      (some (editor.grammar.growth node))
    editor.growNodes owner property block rest (store.announce (.inserted place handle))

/-- Positions at which the document has given nodes get the states of these nodes. -/
theorem growMembers_eq_growNodes {owner : Handle} {block : Nat} {members : List (Node × Nat)}
    (h : ∀ member ∈ members, document.descend (branch.child (.member block member.2)) =
      .ok member.1) (store : Store) :
    editor.growMembers document branch owner block (members.map Prod.snd) store =
      editor.growNodes owner branch.property block members store := by
  induction members generalizing store with
  | nil => rfl
  | cons member rest ih =>
    have hrest := ih fun member hmember => h member (List.mem_cons_of_mem _ hmember)
    have hgrowth : editor.growthAt document (branch.child (.member block member.2)) = _ :=
      growthAt_of_descend (h member List.mem_cons_self)
    rw [List.map_cons, growMembers, growNodes]
    dsimp only
    rw [hgrowth]
    simp only [ok_bind, hrest]

/-- The states of the members of an inserted block are grown for the members that the block has. -/
theorem growMembers_eq {owner : Handle} {block : Nat} {content : Block Node Node}
    (h : editor.changeDocument branch.owner
      (Node.modifyBlocks branch.property (Blocks.insertBlock block content)) = .ok document)
    (store : Store) :
    editor.growMembers document branch owner block (List.range content.members.length) store =
      editor.growNodes owner branch.property block content.members.zipIdx store := by
  have hpositions : List.range content.members.length = content.members.zipIdx.map Prod.snd := by
    rw [List.zipIdx_map_snd, List.range_eq_range']
  rw [hpositions]
  refine growMembers_eq_growNodes (fun member hmember => ?_) store
  exact Node.descend_child_of_modifyAt (orBreak_eq_ok.mp h) fun _ _ hinsert =>
    Node.step_of_insertBlock hinsert (List.mk_mem_zipIdx_iff_getElem?.mp hmember)

end Editor

end TreeEditor
