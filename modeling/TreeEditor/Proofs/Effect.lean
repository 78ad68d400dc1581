import TreeEditor.Proofs.Descent
import TreeEditor.Edit.Basic

/-!
# The effect of an edit on a document

What an edit does to a document, without any states: `Edit.alter` gives the property that it makes
of the one it changes, and `Edit.effect` puts the result where the property was. Neither has a value
where the edit is refused. The editor carries out exactly this effect; here it is shown that the
effect keeps a document well-formed, filled and valid.

Every condition and every change concerns a single property, so each statement about all edits has
one proof by cases for `Edit.alter` and carries over to the document along the path of the edit.
-/

namespace TreeEditor

namespace Property

variable {α : Type}

/-- A property with a child inserted in a slot of a list or block. -/
def insertAt (slot : Slot) (child : α) : Property α → Option (Property α)
  | list nodes =>
    match slot with
    | .list position => (insertItem position child nodes).toOption.map list
    | _ => none
  | blockList blocks =>
    match slot with
    | .member block position =>
      (Blocks.insertMember block position child blocks).toOption.map blockList
    | _ => none
  | _ => none

/-- The child in a slot of a list or block, and the property without it. -/
def removeAt (slot : Slot) : Property α → Option (α × Property α)
  | list nodes =>
    match slot with
    | .list position => (removeItem position nodes).toOption.map fun r => (r.1, list r.2)
    | _ => none
  | blockList blocks =>
    match slot with
    | .member block position =>
      (Blocks.removeMember block position blocks).toOption.map fun r => (r.1, blockList r.2)
    | _ => none
  | _ => none

/-- A property with the child in a slot of a list or block moved by a distance. -/
def moveAt (slot : Slot) (delta : Int) : Property α → Option (Property α)
  | list nodes =>
    match slot with
    | .list position => (moveItem position delta nodes).toOption.map fun r => list r.2
    | _ => none
  | blockList blocks =>
    match slot with
    | .member block position =>
      (Blocks.moveMember block position delta blocks).toOption.map fun r => blockList r.2
    | _ => none
  | _ => none

/-- A slot is in a block that has a single member. -/
def isOnlyMember (slot : Slot) : Property α → Bool
  | blockList blocks =>
    match slot with
    | .member block _ => (blocks[block]?.map fun content => content.members.length) = some 1
    | _ => false
  | _ => false

/-- The blocks of a list of blocks. -/
def blocks? : Property α → Option (List (Block α α))
  | blockList blocks => some blocks
  | _ => none

/-- What is of another kind has no blocks. -/
theorem blocks?_of_kind {property : Property α} (h : property.kind ≠ .blockList) :
    property.blocks? = none := by
  cases property with
  | blockList _ => exact absurd rfl h
  | _ => rfl

/-- What is taken out of a slot stood there. -/
theorem childAt?_of_removeAt {property property' : Property α} {slot : Slot} {child : α}
    (h : property.removeAt slot = some (child, property')) :
    property.childAt? slot = some child := by
  cases property with
  | list nodes =>
    cases slot with
    | list position =>
      obtain ⟨result, hresult, heq⟩ := Option.map_eq_some_iff.mp h
      cases heq
      exact (removeItem_eq_ok.mp (toOption_eq_some.mp hresult)).1
    | _ => cases h
  | blockList blocks =>
    cases slot with
    | member block position =>
      obtain ⟨result, hresult, heq⟩ := Option.map_eq_some_iff.mp h
      cases heq
      obtain ⟨before, content, after, rfl, rfl, hmember, -⟩ :=
        Blocks.removeMember_eq_ok.mp (toOption_eq_some.mp hresult)
      simp only [childAt?, Blocks.getElem?_parts, Option.bind_some, hmember]
    | _ => cases h
  | _ => cases h

/-- Only a list of blocks has blocks. -/
theorem blocks?_eq_some {property : Property α} {blocks : List (Block α α)} :
    property.blocks? = some blocks ↔ property = blockList blocks := by
  cases property <;> simp [blocks?]

end Property

namespace Edit

/-- The nodes that an edit records. -/
def nodes : Edit → List Node
  | insert _ _ node | remove _ _ node => [node]
  | replace _ _ before after => [before, after]
  | assign _ before after => after :: before.toList
  | unassign _ item restore => item :: restore.toList
  | insertBlock _ _ content | removeBlock _ _ content =>
    content.header.pattern :: content.header.source :: content.members
  | splitBlock _ _ _ header | mergeBlocks _ _ _ header => [header.pattern, header.source]
  | move .. | moveBlock .. | changeReplication .. | setValue .. => []

/-- All that an edit records is well-formed. -/
def WellFormed (edit : Edit) : Prop := ∀ node ∈ edit.nodes, node.WellFormed

/-- All that an edit records is filled. -/
def Filled (edit : Edit) : Prop := ∀ node ∈ edit.nodes, node.Filled

instance : DecidablePred WellFormed := fun edit =>
  inferInstanceAs (Decidable (∀ node ∈ edit.nodes, node.WellFormed))

instance : DecidablePred Filled := fun edit =>
  inferInstanceAs (Decidable (∀ node ∈ edit.nodes, node.Filled))

/-- Taking an edit back records the same nodes. -/
theorem mem_nodes_invert {edit : Edit} {node : Node} :
    node ∈ edit.invert.nodes ↔ node ∈ edit.nodes := by
  cases edit <;> simp [invert, nodes, or_comm]

/-- The inverse of a well-formed edit is well-formed. -/
theorem WellFormed.invert {edit : Edit} (h : edit.WellFormed) : edit.invert.WellFormed :=
  fun node hnode => h node (mem_nodes_invert.mp hnode)

/-- An edit and its inverse change one property. -/
@[simp]
theorem site_invert (edit : Edit) : edit.invert.site = edit.site := by
  cases edit <;> rfl

/-- What an edit makes of the property that it changes, given which nodes may stand there. -/
def alter (admits : Node → Bool) (P : Property Node) : Edit → Option (Property Node)
  | insert _ slot node => if admits node then P.insertAt slot node else none
  | remove _ slot node =>
    (P.removeAt slot).bind fun r =>
      if !P.isOnlyMember slot && r.1.same node then some r.2 else none
  | replace _ slot before after =>
    (P.childAt? slot).bind fun held =>
      if held.same before && admits after then some (P.replaceChild slot after) else none
  | move _ slot delta => P.moveAt slot delta
  | assign _ before after =>
    match P with
    | .optional assigned item =>
      if !(assigned && item.isSome) && sameItem item before && admits after then
        some (.optional true (some after))
      else none
    | _ => none
  | unassign _ item restore =>
    match P with
    | .optional true (some held) =>
      if held.same item then some (.optional false restore) else none
    | _ => none
  | insertBlock _ block content =>
    P.blocks?.bind fun blocks =>
      if !content.members.isEmpty && content.members.all admits then
        (Blocks.insertBlock block content blocks).toOption.map .blockList
      else none
  | removeBlock _ block content =>
    P.blocks?.bind fun blocks => (Blocks.removeBlock block blocks).toOption.bind fun r =>
      if r.1.same content then some (.blockList r.2) else none
  | splitBlock _ block position header =>
    P.blocks?.bind fun blocks =>
      (Blocks.split block position header blocks).toOption.map .blockList
  | mergeBlocks _ block position header =>
    P.blocks?.bind fun blocks => (Blocks.merge block blocks).toOption.bind fun r =>
      blocks[block + 1]?.bind fun next =>
        if r.1 = position && next.header.same header then some (.blockList r.2) else none
  | moveBlock _ block delta =>
    P.blocks?.bind fun blocks =>
      (Blocks.moveBlock block delta blocks).toOption.map fun r => .blockList r.2
  | changeReplication _ block before after =>
    P.blocks?.bind fun blocks => blocks[block]?.bind fun held =>
      if held.header.replication = before then
        (Blocks.setReplication block after blocks).toOption.map .blockList
      else none
  | setValue _ _ before after =>
    match P with
    | .value leaf => if leaf = before then some (.value after) else none
    | _ => none

/-- The cases in which an edit makes something of a property. -/
inductive Alters (admits : Node → Bool) : Edit → Property Node → Property Node → Prop where
  | insertItem {branch : BranchPath} {position : Nat} {node : Node} {nodes nodes' : List Node}
    (admitted : admits node = true) (done : insertItem position node nodes = .ok nodes') :
    Alters admits (.insert branch (.list position) node) (.list nodes) (.list nodes')
  | insertMember {branch : BranchPath} {block position : Nat} {node : Node}
    {blocks blocks' : List (Block Node Node)} (admitted : admits node = true)
    (done : Blocks.insertMember block position node blocks = .ok blocks') :
    Alters admits (.insert branch (.member block position) node) (.blockList blocks)
      (.blockList blocks')
  | removeItem {branch : BranchPath} {position : Nat} {node held : Node}
    {nodes nodes' : List Node} (done : removeItem position nodes = .ok (held, nodes'))
    (same : held.Same node) :
    Alters admits (.remove branch (.list position) node) (.list nodes) (.list nodes')
  | removeMember {branch : BranchPath} {block position : Nat} {node held : Node}
    {blocks blocks' : List (Block Node Node)}
    (done : Blocks.removeMember block position blocks = .ok (held, blocks'))
    (others : (Property.blockList blocks).isOnlyMember (.member block position) = false)
    (same : held.Same node) :
    Alters admits (.remove branch (.member block position) node) (.blockList blocks)
      (.blockList blocks')
  | replace {branch : BranchPath} {slot : Slot} {before after held : Node} {P : Property Node}
    (there : P.childAt? slot = some held) (same : held.Same before)
    (admitted : admits after = true) :
    Alters admits (.replace branch slot before after) P (P.replaceChild slot after)
  | moveItem {branch : BranchPath} {position target : Nat} {delta : Int}
    {nodes nodes' : List Node} (done : moveItem position delta nodes = .ok (target, nodes')) :
    Alters admits (.move branch (.list position) delta) (.list nodes) (.list nodes')
  | moveMember {branch : BranchPath} {block position target : Nat} {delta : Int}
    {blocks blocks' : List (Block Node Node)}
    (done : Blocks.moveMember block position delta blocks = .ok (target, blocks')) :
    Alters admits (.move branch (.member block position) delta) (.blockList blocks)
      (.blockList blocks')
  | assign {branch : BranchPath} {assigned : Bool} {item before : Option Node} {after : Node}
    (vacant : (assigned && item.isSome) = false) (same : sameItem item before = true)
    (admitted : admits after = true) :
    Alters admits (.assign branch before after) (.optional assigned item)
      (.optional true (some after))
  | unassign {branch : BranchPath} {item held : Node} {restore : Option Node}
    (same : held.Same item) :
    Alters admits (.unassign branch item restore) (.optional true (some held))
      (.optional false restore)
  | insertBlock {branch : BranchPath} {block : Nat} {content : Block Node Node}
    {blocks blocks' : List (Block Node Node)} (inhabited : content.members ≠ [])
    (admitted : ∀ node ∈ content.members, admits node = true)
    (done : Blocks.insertBlock block content blocks = .ok blocks') :
    Alters admits (.insertBlock branch block content) (.blockList blocks) (.blockList blocks')
  | removeBlock {branch : BranchPath} {block : Nat} {content held : Block Node Node}
    {blocks blocks' : List (Block Node Node)}
    (done : Blocks.removeBlock block blocks = .ok (held, blocks'))
    (same : held.same content = true) :
    Alters admits (.removeBlock branch block content) (.blockList blocks) (.blockList blocks')
  | splitBlock {branch : BranchPath} {block position : Nat} {header : Header Node}
    {blocks blocks' : List (Block Node Node)}
    (done : Blocks.split block position header blocks = .ok blocks') :
    Alters admits (.splitBlock branch block position header) (.blockList blocks)
      (.blockList blocks')
  | mergeBlocks {branch : BranchPath} {block position : Nat} {header : Header Node}
    {next : Block Node Node} {blocks blocks' : List (Block Node Node)}
    (done : Blocks.merge block blocks = .ok (position, blocks'))
    (there : blocks[block + 1]? = some next) (same : next.header.same header = true) :
    Alters admits (.mergeBlocks branch block position header) (.blockList blocks)
      (.blockList blocks')
  | moveBlock {branch : BranchPath} {block target : Nat} {delta : Int}
    {blocks blocks' : List (Block Node Node)}
    (done : Blocks.moveBlock block delta blocks = .ok (target, blocks')) :
    Alters admits (.moveBlock branch block delta) (.blockList blocks) (.blockList blocks')
  | changeReplication {branch : BranchPath} {block : Nat} {before after : Replication}
    {held : Block Node Node} {blocks blocks' : List (Block Node Node)}
    (there : blocks[block]? = some held) (same : held.header.replication = before)
    (done : Blocks.setReplication block after blocks = .ok blocks') :
    Alters admits (.changeReplication branch block before after) (.blockList blocks)
      (.blockList blocks')
  | setValue {owner : Path} {property : String} {before after : Leaf} :
    Alters admits (.setValue owner property before after) (.value before) (.value after)

variable {admits : Node → Bool} {P P' : Property Node} {edit : Edit}

/-- An edit makes something of a property only in these cases. -/
theorem Alters.of_alter (h : edit.alter admits P = some P') : Alters admits edit P P' := by
  -- What an edit checks before it changes the property is in its definition, so the cases follow
  -- it; the slot tells an item from a member.
  cases edit with
  | insert branch slot node =>
    simp only [alter, Option.ite_none_right_eq_some] at h
    obtain ⟨hadmits, h⟩ := h
    cases P <;> cases slot <;> simp only [Property.insertAt, reduceCtorEq,
      Option.map_eq_some_iff, toOption_eq_some] at h
    · obtain ⟨nodes', hdone, rfl⟩ := h
      exact .insertItem hadmits hdone
    · obtain ⟨blocks', hdone, rfl⟩ := h
      exact .insertMember hadmits hdone
  | remove branch slot node =>
    simp only [alter, Option.bind_eq_some_iff, Option.ite_none_right_eq_some,
      Option.some.injEq] at h
    obtain ⟨⟨held, P''⟩, h, hchecks, rfl⟩ := h
    rw [Bool.and_eq_true, Bool.not_eq_true'] at hchecks
    cases P <;> cases slot <;> simp only [Property.removeAt, reduceCtorEq,
      Option.map_eq_some_iff, toOption_eq_some, Prod.mk.injEq] at h
    · obtain ⟨⟨_, nodes'⟩, hdone, rfl, rfl⟩ := h
      exact .removeItem hdone hchecks.2
    · obtain ⟨⟨_, blocks'⟩, hdone, rfl, rfl⟩ := h
      exact .removeMember hdone hchecks.1 hchecks.2
  | replace branch slot before after =>
    simp only [alter, Option.bind_eq_some_iff, Option.ite_none_right_eq_some,
      Option.some.injEq] at h
    obtain ⟨held, hheld, hchecks, rfl⟩ := h
    rw [Bool.and_eq_true] at hchecks
    exact .replace hheld hchecks.1 hchecks.2
  | move branch slot delta =>
    cases P <;> cases slot <;> simp only [alter, Property.moveAt, reduceCtorEq,
      Option.map_eq_some_iff, toOption_eq_some] at h
    · obtain ⟨⟨target, nodes'⟩, hdone, rfl⟩ := h
      exact .moveItem hdone
    · obtain ⟨⟨target, blocks'⟩, hdone, rfl⟩ := h
      exact .moveMember hdone
  | assign branch before after =>
    cases P <;> simp only [alter, reduceCtorEq, Option.ite_none_right_eq_some,
      Option.some.injEq] at h
    obtain ⟨hchecks, rfl⟩ := h
    rw [Bool.and_eq_true, Bool.and_eq_true, Bool.not_eq_true'] at hchecks
    exact .assign hchecks.1.1 hchecks.1.2 hchecks.2
  | unassign branch item restore =>
    simp only [alter] at h
    split at h
    · rw [Option.ite_none_right_eq_some, Option.some.injEq] at h
      obtain ⟨hsame, rfl⟩ := h
      exact .unassign hsame
    · cases h
  | insertBlock branch block content =>
    simp only [alter, Option.bind_eq_some_iff, Property.blocks?_eq_some,
      Option.ite_none_right_eq_some, Option.map_eq_some_iff, toOption_eq_some] at h
    obtain ⟨blocks, rfl, hchecks, blocks', hdone, rfl⟩ := h
    rw [Bool.and_eq_true, Bool.not_eq_true', List.all_eq_true] at hchecks
    exact .insertBlock (by simpa using hchecks.1) hchecks.2 hdone
  | removeBlock branch block content =>
    simp only [alter, Option.bind_eq_some_iff, Property.blocks?_eq_some,
      Option.ite_none_right_eq_some, toOption_eq_some, Option.some.injEq] at h
    obtain ⟨blocks, rfl, ⟨held, blocks'⟩, hdone, hsame, rfl⟩ := h
    exact .removeBlock hdone hsame
  | splitBlock branch block position header =>
    simp only [alter, Option.bind_eq_some_iff, Property.blocks?_eq_some,
      Option.map_eq_some_iff, toOption_eq_some] at h
    obtain ⟨blocks, rfl, blocks', hdone, rfl⟩ := h
    exact .splitBlock hdone
  | mergeBlocks branch block position header =>
    simp only [alter, Option.bind_eq_some_iff, Property.blocks?_eq_some,
      Option.ite_none_right_eq_some, toOption_eq_some, Option.some.injEq] at h
    obtain ⟨blocks, rfl, ⟨count, blocks'⟩, hdone, next, hnext, hchecks, rfl⟩ := h
    rw [Bool.and_eq_true, decide_eq_true_eq] at hchecks
    obtain ⟨rfl, hsame⟩ := hchecks
    exact .mergeBlocks hdone hnext hsame
  | moveBlock branch block delta =>
    simp only [alter, Option.bind_eq_some_iff, Property.blocks?_eq_some,
      Option.map_eq_some_iff, toOption_eq_some] at h
    obtain ⟨blocks, rfl, ⟨target, blocks'⟩, hdone, rfl⟩ := h
    exact .moveBlock hdone
  | changeReplication branch block before after =>
    simp only [alter, Option.bind_eq_some_iff, Property.blocks?_eq_some,
      Option.ite_none_right_eq_some, Option.map_eq_some_iff, toOption_eq_some] at h
    obtain ⟨blocks, rfl, held, hheld, hsame, blocks', hdone, rfl⟩ := h
    exact .changeReplication hheld hsame hdone
  | setValue owner property before after =>
    cases P <;> simp only [alter, reduceCtorEq, Option.ite_none_right_eq_some,
      Option.some.injEq] at h
    obtain ⟨rfl, rfl⟩ := h
    exact .setValue

/-- In each of these cases an edit makes something of a property. -/
theorem Alters.alter_eq (h : Alters admits edit P P') : edit.alter admits P = some P' := by
  cases h with
  | insertItem admitted done => simp [alter, Property.insertAt, admitted, done]
  | insertMember admitted done => simp [alter, Property.insertAt, admitted, done]
  | removeItem done same =>
    have hsame : _ = true := same
    simp [alter, Property.removeAt, done, Property.isOnlyMember, hsame]
  | removeMember done others same =>
    have hsame : _ = true := same
    simp [alter, Property.removeAt, done, others, hsame]
  | replace there same admitted =>
    have hsame : _ = true := same
    simp [alter, there, hsame, admitted]
  | moveItem done => simp [alter, Property.moveAt, done]
  | moveMember done => simp [alter, Property.moveAt, done]
  | assign vacant same admitted => simp [alter, vacant, same, admitted]
  | unassign same =>
    have hsame : _ = true := same
    simp [alter, hsame]
  | insertBlock inhabited admitted done =>
    have hall := List.all_eq_true.mpr admitted
    simp [alter, Property.blocks?, inhabited, hall, done]
  | removeBlock done same => simp [alter, Property.blocks?, done, same]
  | splitBlock done => simp [alter, Property.blocks?, done]
  | mergeBlocks done there same => simp [alter, Property.blocks?, done, there, same]
  | moveBlock done => simp [alter, Property.blocks?, done]
  | changeReplication there same done => simp [alter, Property.blocks?, there, same, done]
  | setValue => simp [alter]

/-- An edit makes something of a property exactly in these cases. -/
theorem alter_eq_some : edit.alter admits P = some P' ↔ Alters admits edit P P' :=
  ⟨Alters.of_alter, Alters.alter_eq⟩

end Edit

end TreeEditor
