import TreeEditor.Proofs.Backward
import TreeEditor.Proofs.Preservation

/-!
# Taking an edit back

An edit that went through can be taken back: its inverse finds all that it asks for in what the edit
made (`Edit.alter_invert`). What it gives is the property as it was, with the nodes that the edit
recorded in the place of those that were there (`Edit.restoration`). Recorded nodes are the same as
those, so the property is the same as before (`Edit.restoration_same`), and it is the very same
where the recorded nodes are.

The one edit that cannot be taken back in this sense assigns an optional child that is assigned
without an item: taking it back leaves it unassigned. Filled documents have no such child.
-/

namespace TreeEditor

/-- The distance of a move leads to the position it arrives at. -/
theorem shifted_eq {position target count : Nat} {delta : Int}
    (h : moveTarget position delta count = .ok target) : Edit.shifted position delta = target := by
  obtain ⟨hlt, hcount, htarget, -⟩ := moveTarget_eq_ok.mp h
  rw [Edit.shifted, signed_of_lt (by omega)]
  omega

/-- Two blocks are the same exactly when their headers and members are. -/
theorem Block.same_iff {a b : Block Node Node} :
    a.same b = true ↔ a.Corresponds (Header.Corresponds Node.Same) Node.Same b :=
  Block.related_iff

/-- Two headers are the same exactly when their nodes are. -/
theorem Header.same_iff {a b : Header Node} :
    a.same b = true ↔ a.Corresponds Node.Same b := Header.related_iff

/-- Two optional nodes are the same exactly when both are there or none. -/
theorem sameItem_iff {a b : Option Node} : sameItem a b = true ↔ Option.Rel Node.Same a b :=
  relatedItems_iff

/-- A header is the same as itself when its nodes are. -/
theorem Header.same_refl {header : Header Node} (hpattern : header.pattern.Same header.pattern)
    (hsource : header.source.Same header.source) : header.same header = true :=
  Header.same_iff.mpr ⟨rfl, hpattern, hsource⟩

/-- An optional node is the same as itself when the node is. -/
theorem sameItem_refl {item : Option Node} (h : ∀ node ∈ item.toList, node.Same node) :
    sameItem item item = true := by
  rw [sameItem_iff]
  cases item with
  | none => exact .none
  | some node => exact .some (h node (List.mem_singleton_self node))

section Blocks

variable {a b c : Block Node Node}

/-- A block is the same as itself when its nodes are. -/
theorem Block.same_refl
    (ha : ∀ node ∈ a.header.pattern :: a.header.source :: a.members, node.Same node) :
    a.same a = true := by
  have hheader : a.header.same a.header = true :=
    Header.same_refl (ha _ List.mem_cons_self) (ha _ (List.mem_cons_of_mem _ List.mem_cons_self))
  refine Block.same_iff.mpr ⟨Header.same_iff.mp hheader, List.forall₂_same.mpr fun node hnode => ?_⟩
  exact ha node (List.mem_cons_of_mem _ (List.mem_cons_of_mem _ hnode))

-- Blocks are compared as the lists of blocks that hold them alone.

/-- Sameness of blocks of well-formed nodes goes both ways. -/
theorem Block.same_symm
    (ha : ∀ node ∈ a.header.pattern :: a.header.source :: a.members, node.WellFormed)
    (hb : ∀ node ∈ b.header.pattern :: b.header.source :: b.members, node.WellFormed)
    (h : a.same b = true) : b.same a = true := by
  have hab : (Property.blockList [a]).Corresponds Node.Same (.blockList [b]) :=
    .blockList (.cons (Block.same_iff.mp h) .nil)
  have hback : (Property.blockList [b]).Corresponds Node.Same (.blockList [a]) := by
    refine hab.attach.flip.mono ?_
    rintro y x ⟨hx, hy, hxy⟩
    exact Node.same_symm (ha x (by simpa [Property.nodes] using hx))
      (hb y (by simpa [Property.nodes] using hy)) hxy
  cases hback with
  | blockList hblocks => exact Block.same_iff.mpr (List.forall₂_cons.mp hblocks).1

/-- Blocks that are the same as one block of well-formed nodes are the same. -/
theorem Block.same_trans
    (ha : ∀ node ∈ a.header.pattern :: a.header.source :: a.members, node.WellFormed)
    (hb : ∀ node ∈ b.header.pattern :: b.header.source :: b.members, node.WellFormed)
    (hc : ∀ node ∈ c.header.pattern :: c.header.source :: c.members, node.WellFormed)
    (h : a.same b = true) (h' : b.same c = true) : a.same c = true := by
  have hab : (Property.blockList [a]).Corresponds Node.Same (.blockList [b]) :=
    .blockList (.cons (Block.same_iff.mp h) .nil)
  have hbc : (Property.blockList [b]).Corresponds Node.Same (.blockList [c]) :=
    .blockList (.cons (Block.same_iff.mp h') .nil)
  have hac : (Property.blockList [a]).Corresponds Node.Same (.blockList [c]) := by
    refine (hab.attach.comp hbc.attach).mono ?_
    rintro x z ⟨y, ⟨hx, hy, hxy⟩, -, hz, hyz⟩
    exact Node.same_trans (ha x (by simpa [Property.nodes] using hx))
      (hb y (by simpa [Property.nodes] using hy)) (hc z (by simpa [Property.nodes] using hz))
      hxy hyz
  cases hac with
  | blockList hblocks => exact Block.same_iff.mpr (List.forall₂_cons.mp hblocks).1

end Blocks

/-- A list of blocks corresponds to itself with a corresponding block in the place of one. -/
theorem Blocks.corresponds_set {blocks : List (Block Node Node)} {block : Nat}
    {held content : Block Node Node} (hblocks : ∀ node ∈ (Property.blockList blocks).nodes,
      node.Same node) (there : blocks[block]? = some held)
    (h : content.Corresponds (Header.Corresponds Node.Same) Node.Same held) :
    (Property.blockList (blocks.set block content)).Corresponds Node.Same (.blockList blocks) := by
  obtain ⟨_, hget⟩ := List.getElem?_eq_some_iff.mp there
  cases Property.Corresponds.refl hblocks with
  | blockList hall =>
    have hset := forall₂_set hall h block
    rw [← hget, List.set_getElem_self] at hset
    exact .blockList hset

namespace Edit

/-- A property as taking an edit back leaves it: with the recorded nodes in it. -/
def restoration (P : Property Node) : Edit → Property Node
  | remove _ slot node => P.replaceChild slot node
  | replace _ slot before _ => P.replaceChild slot before
  | assign _ before _ => .optional false before
  | unassign _ item _ => .optional true (some item)
  | removeBlock _ block content =>
    match P with
    | .blockList blocks => .blockList (blocks.set block content)
    | P => P
  | mergeBlocks _ block _ header =>
    match P with
    | .blockList blocks =>
      .blockList (blocks.modify (block + 1) fun content => { content with header })
    | P => P
  | _ => P

variable {allows : Node → Bool} {P P' : Property Node} {edit : Edit}

/-- What is known of a property before an edit: no block is empty, its children may stand there, and
so may nodes that are the same as one that may. -/
structure Ready (allows : Node → Bool) (P : Property Node) : Prop where
  populated : P.Populated
  wellFormed : ∀ node ∈ P.nodes, node.WellFormed
  allowed : ∀ slot child, P.childAt? slot = some child → allows child = true
  same : ∀ a b : Node, a.WellFormed → b.WellFormed → a.Same b → allows a = true → allows b = true

/-- A node that is the same as a child may stand there. -/
theorem Ready.allows_same (h : Ready allows P) (slot : Slot) {held node : Node}
    (hheld : P.childAt? slot = some held) (hnode : node.WellFormed) (hsame : held.Same node) :
    allows node = true :=
  h.same held node (h.wellFormed held (Property.mem_nodes_of_childAt? hheld)) hnode hsame
    (h.allowed slot held hheld)

/-- The inverse of a move starts where the move arrived. -/
theorem invert_move {branch : BranchPath} {slot : Slot} {position target count : Nat} {delta : Int}
    (hslot : slot.position? = some position)
    (h : moveTarget position delta count = .ok target) :
    invert (.move branch slot delta) = .move branch (slot.moveTo target) (-delta) := by
  rw [invert, shiftedSlot, hslot]
  simp only [shifted_eq h]

/-- The member that a removal finds is a child of the property. -/
theorem childAt?_of_removeMember {block position : Nat} {blocks blocks' : List (Block Node Node)}
    {held : Node} (h : Blocks.removeMember block position blocks = .ok (held, blocks')) :
    (Property.blockList blocks).childAt? (.member block position) = some held := by
  obtain ⟨before, content, after, rfl, rfl, hheld, -⟩ := Blocks.removeMember_eq_ok.mp h
  simp only [Property.childAt?, Blocks.getElem?_parts, Option.bind_some, hheld]

/-- A block has another member beside one that was inserted. -/
theorem isOnlyMember_insertMember {block position : Nat} {node : Node}
    {blocks blocks' : List (Block Node Node)} (hP : (Property.blockList blocks).Populated)
    (h : Blocks.insertMember block position node blocks = .ok blocks') :
    (Property.blockList blocks').isOnlyMember (.member block position) = false := by
  obtain ⟨before, content, after, rfl, rfl, hle, rfl⟩ := Blocks.insertMember_eq_ok.mp h
  have hlength := List.length_pos_iff.mpr (hP content (by simp))
  simp only [Property.isOnlyMember, Blocks.getElem?_parts, Option.map_some, Option.some.injEq,
    decide_eq_false_iff_not, List.length_insertIdx_of_le_length hle]
  omega

/-- A block that is the same as one of a property may be put there: it has members, and they may
stand there. -/
theorem Ready.allows_block {blocks : List (Block Node Node)} {held content : Block Node Node}
    (hP : Ready allows (.blockList blocks)) {block : Nat} (hheld : blocks[block]? = some held)
    (hcontent : ∀ node ∈ content.members, node.WellFormed) (hsame : held.same content = true) :
    content.members ≠ [] ∧ ∀ node ∈ content.members, allows node = true := by
  have hmembers := (Block.same_iff.mp hsame).members
  refine ⟨fun hnil => ?_, fun node hnode => ?_⟩
  · have hlength := hmembers.length_eq
    rw [hnil] at hlength
    exact hP.populated held (List.mem_of_getElem? hheld) (List.length_eq_zero_iff.mp hlength)
  · obtain ⟨position, hposition⟩ := List.mem_iff_getElem?.mp hnode
    have hrel := rel_getElem? hmembers position
    rw [hposition, rel_some_right] at hrel
    obtain ⟨member, hmember, hsame⟩ := hrel
    refine hP.allows_same (.member block position) ?_ (hcontent node hnode) hsame
    simp only [Property.childAt?, hheld, Option.bind_some, hmember]

/-- The inverse of an edit makes of what the edit made the property with the recorded nodes. -/
theorem alter_invert (hP : Ready allows P) (hedit : edit.WellFormed)
    (h : edit.alter allows P = some P') :
    edit.invert.alter allows P' = some (edit.restoration P) := by
  rw [alter_eq_some]
  have hrefl : ∀ node ∈ edit.nodes, node.Same node := fun node hnode =>
    Node.same_refl (hedit node hnode)
  -- What the edit did to the lists is taken back by its inverse; what the inverse compares with a
  -- recorded node is that node.
  cases alter_eq_some.mp h with
  | @insertItem _ position node _ _ admitted done =>
    exact .removeItem (removeItem_of_insertItem done) (hrefl node (List.mem_singleton_self _))
  | @insertMember _ block position node _ _ admitted done =>
    exact .removeMember (Blocks.removeMember_of_insertMember done)
      (isOnlyMember_insertMember hP.populated done) (hrefl node (List.mem_singleton_self _))
  | @removeItem _ position node held _ _ done same =>
    exact .insertItem (hP.allows_same (.list position) (removeItem_eq_ok.mp done).1
      (hedit node (List.mem_singleton_self _)) same) (insertItem_of_removeItem done node)
  | @removeMember _ block position node held _ _ done others same =>
    exact .insertMember (hP.allows_same _ (childAt?_of_removeMember done)
      (hedit node (List.mem_singleton_self _)) same) (Blocks.insertMember_of_removeMember done node)
  | @replace _ slot before after held _ there same admitted =>
    have hbefore := hedit before (by simp [nodes])
    have hthere : (P.replaceChild slot after).childAt? slot = some after := by
      rw [Property.childAt?_replaceChild, if_pos rfl, there]
      rfl
    rw [invert, restoration, ← Property.replaceChild_replaceChild before]
    exact .replace hthere (hrefl after (by simp [nodes])) (hP.allows_same _ there hbefore same)
  | @moveItem _ position target delta _ _ done =>
    rw [invert_move rfl (moveItem_eq_ok.mp done).1]
    exact .moveItem (moveItem_invert done)
  | @moveMember _ block position target delta _ _ done =>
    obtain ⟨_, _, _, _, -, -, hmove, -⟩ := Blocks.moveMember_eq_ok.mp done
    rw [invert_move rfl (moveItem_eq_ok.mp hmove).1]
    exact .moveMember (Blocks.moveMember_invert done)
  | @assign _ assigned item before after vacant same admitted =>
    exact .unassign (hrefl after (by simp [nodes]))
  | @unassign _ item held restore same =>
    have hitem := hedit item (by simp [nodes])
    have hrestore := sameItem_refl fun node hnode => hrefl node (List.mem_cons_of_mem _ hnode)
    exact .assign rfl hrestore (hP.allows_same .optional rfl hitem same)
  | @insertBlock _ block content _ _ inhabited admitted done =>
    exact .removeBlock (removeItem_of_insertItem done) (Block.same_refl hrefl)
  | @removeBlock _ block content held _ _ done same =>
    obtain ⟨hinhabited, hadmitted⟩ := hP.allows_block (removeItem_eq_ok.mp done).1
      (fun node hnode => hedit node (by simp [nodes, hnode])) same
    exact .insertBlock hinhabited hadmitted (insertItem_of_removeItem done content)
  | @splitBlock _ block position header _ _ done =>
    obtain ⟨hmerge, members, hnext⟩ := Blocks.merge_of_split done
    exact .mergeBlocks hmerge hnext
      (Header.same_refl (hrefl _ (by simp [nodes])) (hrefl _ (by simp [nodes])))
  | @mergeBlocks _ block position header _ _ _ done there same =>
    exact .splitBlock (Blocks.split_of_merge hP.populated done header)
  | @moveBlock branch block target delta _ _ done =>
    have hinverse : invert (.moveBlock branch block delta) = .moveBlock branch target (-delta) := by
      rw [invert, shifted_eq (moveItem_eq_ok.mp done).1]
    rw [hinverse]
    exact .moveBlock (moveItem_invert done)
  | @changeReplication _ block before after held _ _ there same done =>
    subst same
    obtain ⟨hback, hthere⟩ := Blocks.setReplication_invert done there
    exact .changeReplication hthere rfl hback
  | setValue => exact .setValue

/-- The property with the recorded nodes is the same as before. -/
theorem restoration_same (hP : ∀ node ∈ P.nodes, node.WellFormed)
    (hfilled : P ≠ .optional true none) (hedit : edit.WellFormed)
    (h : edit.alter allows P = some P') : (edit.restoration P).Corresponds Node.Same P := by
  have hnodes : ∀ node ∈ P.nodes, node.Same node := fun node hnode => Node.same_refl (hP node hnode)
  have hrefl : P.Corresponds Node.Same P := .refl hnodes
  -- All edits of a slot come to this: the recorded node is the same as the one that stands there.
  have hchild : ∀ (slot : Slot) {held node : Node}, P.childAt? slot = some held →
      node.WellFormed → held.Same node → (P.replaceChild slot node).Corresponds Node.Same P := by
    intro slot held node hheld hnode hsame
    have hback := hrefl.replaceChild
      (Node.same_symm (hP held (Property.mem_nodes_of_childAt? hheld)) hnode hsame) slot
    rwa [Property.replaceChild_self hheld] at hback
  cases alter_eq_some.mp h with
  | @removeItem _ position node held nodes _ done same =>
    exact hchild (.list position) (removeItem_eq_ok.mp done).1
      (hedit node (List.mem_singleton_self _)) same
  | @removeMember _ block position node held _ _ done others same =>
    exact hchild (.member block position) (childAt?_of_removeMember done)
      (hedit node (List.mem_singleton_self _)) same
  | @replace _ slot before after held _ there same admitted =>
    exact hchild slot there (hedit before (by simp [nodes])) same
  | @assign _ assigned item before after vacant same admitted =>
    -- An item was assigned, so there was none; and what is assigned without an item is excluded.
    have hassigned : assigned = false := by
      cases assigned with
      | false => rfl
      | true =>
        cases item with
        | none => exact absurd rfl hfilled
        | some node => cases vacant
    subst hassigned
    refine .optional false ?_
    have hitem := sameItem_iff.mp same
    cases item with
    | none =>
      rw [rel_none_left] at hitem
      subst hitem
      exact .none
    | some node =>
      rw [rel_some_left] at hitem
      obtain ⟨recorded, rfl, hsame⟩ := hitem
      exact .some (Node.same_symm (hP node (by simp [Property.nodes]))
        (hedit recorded (by simp [nodes])) hsame)
  | @unassign _ item held restore same =>
    exact .optional true (.some (Node.same_symm (hP held (by simp [Property.nodes]))
      (hedit item (by simp [nodes])) same))
  | @removeBlock _ block content held blocks _ done same =>
    have hheld := (removeItem_eq_ok.mp done).1
    have hback := Block.same_symm (fun node hnode => hP node (mem_nodes_of_block hheld hnode))
      hedit same
    exact Blocks.corresponds_set hnodes hheld (Block.same_iff.mp hback)
  | @mergeBlocks branch block _ header next blocks _ done there same =>
    have hheader := Header.same_iff.mp same
    have hwell : ∀ node ∈ next.header.pattern :: next.header.source :: next.members,
        node.WellFormed := fun node hnode => hP node (mem_nodes_of_block there hnode)
    have hpattern := Node.same_symm (hwell _ (by simp)) (hedit header.pattern (by simp [nodes]))
      hheader.pattern
    have hsource := Node.same_symm (hwell _ (by simp)) (hedit header.source (by simp [nodes]))
      hheader.source
    have hmembers : List.Forall₂ Node.Same next.members next.members :=
      List.forall₂_same.mpr fun node hnode => Node.same_refl (hwell node (by simp [hnode]))
    have hmodify : blocks.modify (block + 1) (fun content => { content with header }) =
        blocks.set (block + 1) ⟨header, next.members⟩ := by
      rw [List.modify_eq_set_getElem?, there]
      rfl
    rw [restoration, hmodify]
    exact Blocks.corresponds_set hnodes there
      ⟨⟨hheader.replication.symm, hpattern, hsource⟩, hmembers⟩
  | _ => exact hrefl

section Effect

variable {grammar : Grammar} {document document' owner : Node}

/-- The inverse of an edit changes a property of the same owner that an edit made. -/
theorem target_set (howner : owner.WellFormed) (htarget : edit.target grammar owner = some P)
    (hkind : P'.kind = P.kind) :
    edit.invert.target grammar (owner.set edit.site.property P') = some P' := by
  have hbranch : ∀ name, grammar.branch? owner name = some P →
      grammar.branch? (owner.set name P') name = some P' := by
    intro name hP
    rw [Grammar.branch?_set howner.keys (Grammar.property?_of_branch? howner.keys hP) hkind,
      if_pos rfl, hP]
    rfl
  cases edit with
  | setValue path name before after =>
    rw [invert, target, site, Node.property?_set, if_pos rfl]
  | _ => exact hbranch _ htarget

/-- The property that an edit changes is ready for it. -/
theorem ready_target (hvalid : grammar.Valid owner) (howner : owner.WellFormed)
    (htarget : edit.target grammar owner = some P)
    (halter : edit.alter (admits grammar owner.kind edit.site.property) P = some P') :
    Ready (admits grammar owner.kind edit.site.property) P := by
  have hnodes : ∀ node ∈ P.nodes, node.WellFormed := fun node hnode =>
    Node.Everywhere.property howner (property?_target howner htarget) hnode
  have hsame : ∀ a b : Node, a.WellFormed → b.WellFormed → a.Same b →
      admits grammar owner.kind edit.site.property a = true →
        admits grammar owner.kind edit.site.property b = true := by
    intro a b ha hb hab hadmits
    rw [admits_iff] at hadmits ⊢
    exact hadmits.same hb ha (Node.same_symm ha hb hab)
  have hbranch : grammar.branch? owner edit.site.property = some P →
      Ready (admits grammar owner.kind edit.site.property) P := fun hP =>
    have hfits := hvalid.fits howner.keys hP
    ⟨hfits.populated, hnodes, fun slot child hchild =>
      admits_iff.mpr (hfits.admits slot child hchild), hsame⟩
  cases edit with
  | setValue path name before after =>
    cases alter_eq_some.mp halter
    refine ⟨trivial, hnodes, fun slot child hchild => ?_, hsame⟩
    cases hchild
  | _ => exact hbranch htarget

/-- What taking back an edit makes of a document: the nodes that the edit recorded are in it. -/
theorem effect_invert (hdocument : document.WellFormed) (hvalid : grammar.Valid document)
    (hedit : edit.WellFormed) (h : edit.effect grammar document = some document') :
    ∃ owner P, grammar.reach document edit.site.owner = some owner ∧
      edit.target grammar owner = some P ∧
      (∃ P', edit.alter (admits grammar owner.kind edit.site.property) P = some P') ∧
      edit.invert.effect grammar document' =
        some (document.put edit.site.owner
          (owner.set edit.site.property (edit.restoration P))) := by
  obtain ⟨owner, P, P', hreach, htarget, halter, rfl⟩ := effect_eq_some.mp h
  have howner := Grammar.wellFormed_reach hdocument hreach
  have hready := ready_target (hvalid.reach hdocument hreach) howner htarget halter
  refine ⟨owner, P, hreach, htarget, ⟨P', halter⟩, effect_eq_some.mpr
    ⟨owner.set edit.site.property P', P', edit.restoration P, ?_, ?_, ?_, ?_⟩⟩
  · rw [site_invert]
    exact Grammar.reach_put hdocument hreach
  · exact target_set howner htarget (kind_alter halter)
  · rw [site_invert, Node.kind_set]
    exact alter_invert hready hedit halter
  · rw [site_invert, Grammar.put_put hdocument hreach, Node.set_set]

/-- Taking back an edit of a filled document gives a document that is the same as before. -/
theorem effect_invert_same (hdocument : document.WellFormed) (hvalid : grammar.Valid document)
    (hfilled : document.Filled) (hedit : edit.WellFormed)
    (h : edit.effect grammar document = some document') :
    ∃ back, edit.invert.effect grammar document' = some back ∧ back.Same document := by
  obtain ⟨owner, P, hreach, htarget, ⟨P', halter⟩, heffect⟩ :=
    effect_invert hdocument hvalid hedit h
  have howner := Grammar.wellFormed_reach hdocument hreach
  have hP := property?_target howner htarget
  have hfill := Grammar.everywhere_reach hdocument hfilled hreach
  refine ⟨_, heffect, ?_⟩
  have hsame : (owner.set edit.site.property (edit.restoration P)).Same
      (owner.set edit.site.property P) :=
    Node.Same.set howner howner (Node.same_refl howner) (restoration_same
      (fun node hnode => Node.Everywhere.property howner hP hnode)
      (hfill.here _ (Table.mem_of_get? hP)) hedit halter) _
  rw [Node.set_property? hP] at hsame
  have hput := Grammar.put_same hdocument hdocument (Node.same_refl hdocument) hreach hreach hsame
  rwa [Grammar.put_self hdocument hreach] at hput

/-- An edit records what is in a document: taking it back restores the very property. -/
def Faithful (grammar : Grammar) (edit : Edit) (document : Node) : Prop :=
  ∀ owner P, grammar.reach document edit.site.owner = some owner →
    edit.target grammar owner = some P → edit.restoration P = P

/-- Taking back an edit that records what is in the document restores the document. -/
theorem effect_invert_exact (hdocument : document.WellFormed) (hvalid : grammar.Valid document)
    (hedit : edit.WellFormed) (hfaithful : edit.Faithful grammar document)
    (h : edit.effect grammar document = some document') :
    edit.invert.effect grammar document' = some document := by
  obtain ⟨owner, P, hreach, htarget, -, heffect⟩ := effect_invert hdocument hvalid hedit h
  have howner := Grammar.wellFormed_reach hdocument hreach
  rw [heffect, hfaithful owner P hreach htarget,
    Node.set_property? (property?_target howner htarget), Grammar.put_self hdocument hreach]

end Effect

end Edit

end TreeEditor
