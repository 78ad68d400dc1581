import TreeEditor.Proofs.Effect

/-!
# What an edit preserves

An edit keeps the kind of the property that it changes (`Edit.kind_alter`) and brings no nodes in
but those that it records (`Edit.nodes_alter`); a property that fits still fits (`Edit.fits_alter`).
So the effect of an edit keeps a document well-formed, filled, valid and of its kind.
-/

namespace TreeEditor

namespace Edit

section Alter

variable {admits : Node → Bool} {P P' : Property Node} {edit : Edit}

/-- The nodes under a list of blocks are those of the blocks. -/
theorem mem_nodes_blockList {blocks : List (Block Node Node)} {node : Node} :
    node ∈ (Property.blockList blocks).nodes ↔ ∃ content ∈ blocks, node = content.header.pattern ∨
      node = content.header.source ∨ node ∈ content.members := by
  simp [Property.nodes]

/-- The nodes of a block in a list are under the list. -/
theorem mem_nodes_of_block {blocks : List (Block Node Node)} {block : Nat}
    {content : Block Node Node} (there : blocks[block]? = some content) {node : Node}
    (hnode : node ∈ content.header.pattern :: content.header.source :: content.members) :
    node ∈ (Property.blockList blocks).nodes :=
  List.mem_flatMap.mpr ⟨content, List.mem_of_getElem? there, hnode⟩

/-- The nodes under a list of blocks are those of one of the blocks and those of the others. -/
theorem mem_nodes_parts {before after : List (Block Node Node)} {content : Block Node Node}
    {node : Node} : node ∈ (Property.blockList (before ++ content :: after)).nodes ↔
      (node = content.header.pattern ∨ node = content.header.source ∨ node ∈ content.members) ∨
        node ∈ (Property.blockList (before ++ after)).nodes := by
  simp only [mem_nodes_blockList, List.mem_append, List.mem_cons, or_and_right, exists_or,
    exists_eq_left]
  exact or_left_comm

/-- An edit keeps the kind of a property. -/
theorem kind_alter (h : edit.alter admits P = some P') : P'.kind = P.kind := by
  cases alter_eq_some.mp h with
  | replace there same admitted => exact Property.kind_replaceChild
  | _ => rfl

/-- The nodes under a property that an edit made were there before or are recorded by the edit. -/
theorem nodes_alter (h : edit.alter admits P = some P') {node : Node} (hnode : node ∈ P'.nodes) :
    node ∈ P.nodes ∨ node ∈ edit.nodes := by
  cases alter_eq_some.mp h with
  | insertItem admitted done =>
    rcases List.mem_cons.mp ((insertItem_perm done).mem_iff.mp hnode) with rfl | hold
    · exact .inr (List.mem_singleton_self _)
    · exact .inl hold
  | insertMember admitted done =>
    obtain ⟨before, content, after, rfl, rfl, hle, rfl⟩ := Blocks.insertMember_eq_ok.mp done
    rw [mem_nodes_parts, (List.perm_insertIdx _ _ hle).mem_iff, List.mem_cons] at hnode
    rw [mem_nodes_parts]
    rcases hnode with (hpattern | hsource | rfl | hmember) | hother
    · exact .inl (.inl (.inl hpattern))
    · exact .inl (.inl (.inr (.inl hsource)))
    · exact .inr (List.mem_singleton_self _)
    · exact .inl (.inl (.inr (.inr hmember)))
    · exact .inl (.inr hother)
  | removeItem done same =>
    exact .inl ((removeItem_perm done).mem_iff.mpr (List.mem_cons_of_mem _ hnode))
  | removeMember done others same =>
    obtain ⟨before, content, after, rfl, rfl, hmember, rfl⟩ := Blocks.removeMember_eq_ok.mp done
    rw [mem_nodes_parts] at hnode ⊢
    exact .inl (hnode.imp_left (Or.imp_right (Or.imp_right List.mem_of_mem_eraseIdx)))
  | replace there same admitted =>
    rcases Property.mem_nodes_replaceChild hnode with rfl | hold
    · exact .inr (by simp [nodes])
    · exact .inl hold
  | moveItem done => exact .inl ((moveItem_perm done).mem_iff.mp hnode)
  | moveMember done =>
    obtain ⟨before, content, after, members, rfl, rfl, hmove, rfl⟩ :=
      Blocks.moveMember_eq_ok.mp done
    rw [mem_nodes_parts, (moveItem_perm hmove).mem_iff] at hnode
    exact .inl (mem_nodes_parts.mpr hnode)
  | assign vacant same admitted =>
    exact .inr (List.mem_cons.mpr (.inl (List.mem_singleton.mp hnode)))
  | unassign same => exact .inr (List.mem_cons_of_mem _ hnode)
  | insertBlock inhabited admitted done =>
    rw [mem_nodes_blockList] at hnode ⊢
    obtain ⟨block, hblock, hin⟩ := hnode
    rcases List.mem_cons.mp ((insertItem_perm done).mem_iff.mp hblock) with rfl | hold
    · exact .inr (by simpa [nodes] using hin)
    · exact .inl ⟨block, hold, hin⟩
  | removeBlock done same =>
    rw [mem_nodes_blockList] at hnode ⊢
    obtain ⟨block, hblock, hin⟩ := hnode
    exact .inl ⟨block, (removeItem_perm done).mem_iff.mpr (List.mem_cons_of_mem _ hblock), hin⟩
  | splitBlock done =>
    obtain ⟨before, content, after, rfl, rfl, -, -, rfl⟩ := Blocks.split_eq_ok.mp done
    rw [mem_nodes_parts, mem_nodes_parts] at hnode
    rw [mem_nodes_parts]
    rcases hnode with hfirst | (hpattern | hsource | hmember) | hother
    · exact .inl (.inl (hfirst.imp_right (Or.imp_right List.mem_of_mem_take)))
    · exact .inr (by simp [nodes, hpattern])
    · exact .inr (by simp [nodes, hsource])
    · exact .inl (.inl (.inr (.inr (List.mem_of_mem_drop hmember))))
    · exact .inl (.inr hother)
  | mergeBlocks done there same =>
    obtain ⟨before, content, next, after, rfl, rfl, -, rfl⟩ := Blocks.merge_eq_ok.mp done
    rw [mem_nodes_parts, List.mem_append] at hnode
    rw [mem_nodes_parts, mem_nodes_parts]
    rcases hnode with (hpattern | hsource | hfirst | hsecond) | hother
    · exact .inl (.inl (.inl hpattern))
    · exact .inl (.inl (.inr (.inl hsource)))
    · exact .inl (.inl (.inr (.inr hfirst)))
    · exact .inl (.inr (.inl (.inr (.inr hsecond))))
    · exact .inl (.inr (.inr hother))
  | moveBlock done =>
    rw [mem_nodes_blockList] at hnode ⊢
    obtain ⟨block, hblock, hin⟩ := hnode
    exact .inl ⟨block, (moveItem_perm done).mem_iff.mp hblock, hin⟩
  | changeReplication there same done =>
    obtain ⟨before, content, after, rfl, rfl, rfl⟩ := Blocks.setReplication_eq_ok.mp done
    rw [mem_nodes_parts] at hnode ⊢
    exact .inl hnode
  | setValue => cases hnode

/-- An edit leaves no assigned optional child without an item that had one. -/
theorem filled_alter (h : edit.alter admits P = some P') (hP : P ≠ .optional true none) :
    P' ≠ .optional true none := by
  cases alter_eq_some.mp h with
  | replace there same admitted => exact Property.replaceChild_ne_optional hP
  | _ => simp

/-- The children of a list are its nodes. -/
theorem exists_childAt?_list {nodes : List Node} {node : Node} :
    (∃ slot, (Property.list nodes).childAt? slot = some node) ↔ node ∈ nodes := by
  constructor
  · rintro ⟨slot, hslot⟩
    exact Property.mem_nodes_of_childAt? hslot
  · intro hmem
    obtain ⟨position, hposition⟩ := List.mem_iff_getElem?.mp hmem
    exact ⟨.list position, hposition⟩

/-- The children of a list of blocks are the members of the blocks. -/
theorem exists_childAt?_blockList {blocks : List (Block Node Node)} {node : Node} :
    (∃ slot, (Property.blockList blocks).childAt? slot = some node) ↔
      node ∈ Blocks.allMembers blocks := by
  rw [Blocks.allMembers, ← map_snd_blockSlots, List.mem_map]
  constructor
  · rintro ⟨slot, hslot⟩
    exact ⟨(slot, node), Property.mem_children.mpr hslot, rfl⟩
  · rintro ⟨⟨slot, held⟩, hmem, rfl⟩
    exact ⟨slot, Property.mem_children.mp hmem⟩

/-- The children of a property that an edit made were there before or may stand there. -/
theorem admitted_alter (h : edit.alter admits P = some P') {child : Node}
    (hchild : ∃ slot, P'.childAt? slot = some child) :
    (∃ slot, P.childAt? slot = some child) ∨ admits child = true := by
  -- What stands in the slots is what is in the lists, whatever its position there.
  cases alter_eq_some.mp h with
  | insertItem admitted done =>
    rw [exists_childAt?_list, (insertItem_perm done).mem_iff, List.mem_cons] at hchild
    rw [exists_childAt?_list]
    rcases hchild with rfl | hold
    · exact .inr admitted
    · exact .inl hold
  | insertMember admitted done =>
    rw [exists_childAt?_blockList, (Blocks.insertMember_perm done).mem_iff, List.mem_cons]
      at hchild
    rw [exists_childAt?_blockList]
    rcases hchild with rfl | hold
    · exact .inr admitted
    · exact .inl hold
  | removeItem done same =>
    rw [exists_childAt?_list] at hchild ⊢
    exact .inl ((removeItem_perm done).mem_iff.mpr (List.mem_cons_of_mem _ hchild))
  | removeMember done others same =>
    rw [exists_childAt?_blockList] at hchild ⊢
    exact .inl ((Blocks.removeMember_perm done).mem_iff.mpr (List.mem_cons_of_mem _ hchild))
  | replace there same admitted =>
    obtain ⟨slot, hchild⟩ := hchild
    rw [Property.childAt?_replaceChild, there] at hchild
    split at hchild
    · cases hchild
      exact .inr admitted
    · exact .inl ⟨slot, hchild⟩
  | moveItem done =>
    rw [exists_childAt?_list] at hchild ⊢
    exact .inl ((moveItem_perm done).mem_iff.mp hchild)
  | moveMember done =>
    rw [exists_childAt?_blockList] at hchild ⊢
    exact .inl ((Blocks.moveMember_perm done).mem_iff.mp hchild)
  | assign vacant same admitted =>
    obtain ⟨slot, hchild⟩ := hchild
    cases slot <;> cases hchild
    exact .inr admitted
  | unassign same =>
    obtain ⟨slot, hchild⟩ := hchild
    cases slot <;> cases hchild
  | insertBlock inhabited admitted done =>
    rw [exists_childAt?_blockList, Blocks.allMembers,
      ((insertItem_perm done).flatMap_right Block.members).mem_iff, List.flatMap_cons,
      List.mem_append] at hchild
    rw [exists_childAt?_blockList]
    rcases hchild with hnew | hold
    · exact .inr (admitted child hnew)
    · exact .inl hold
  | removeBlock done same =>
    rw [exists_childAt?_blockList] at hchild ⊢
    exact .inl ((Blocks.removeBlock_perm done).mem_iff.mpr (List.mem_append_right _ hchild))
  | splitBlock done =>
    rw [exists_childAt?_blockList, Blocks.allMembers_split done] at hchild
    exact .inl (exists_childAt?_blockList.mpr hchild)
  | mergeBlocks done there same =>
    rw [exists_childAt?_blockList, Blocks.allMembers_merge done] at hchild
    exact .inl (exists_childAt?_blockList.mpr hchild)
  | moveBlock done =>
    rw [exists_childAt?_blockList] at hchild ⊢
    exact .inl ((Blocks.moveBlock_perm done).mem_iff.mp hchild)
  | changeReplication there same done =>
    rw [exists_childAt?_blockList, Blocks.allMembers_setReplication done] at hchild
    exact .inl (exists_childAt?_blockList.mpr hchild)
  | setValue =>
    obtain ⟨slot, hchild⟩ := hchild
    cases hchild

/-- Removing a member of a block that has others leaves a member. -/
theorem eraseIdx_ne_nil {blocks : List (Block Node Node)} {before after : List (Block Node Node)}
    {content : Block Node Node} {position : Nat} {held : Node}
    (hblocks : blocks = before ++ content :: after)
    (hmember : content.members[position]? = some held)
    (others : (Property.blockList blocks).isOnlyMember (.member before.length position) = false) :
    content.members.eraseIdx position ≠ [] := by
  obtain ⟨hlt, -⟩ := List.getElem?_eq_some_iff.mp hmember
  intro hnil
  have hlength := congrArg List.length hnil
  rw [List.length_eraseIdx_of_lt hlt, List.length_nil] at hlength
  have hone : content.members.length = 1 := by omega
  subst hblocks
  simp [Property.isOnlyMember, hone] at others

/-- No block is empty when the blocks before one, the block and those after it are not. -/
theorem populated_parts {before after : List (Block Node Node)} {content : Block Node Node} :
    (Property.blockList (before ++ content :: after)).Populated ↔
      (Property.blockList before).Populated ∧ content.members ≠ [] ∧
        (Property.blockList after).Populated := by
  simp only [Property.Populated, List.forall_mem_append, List.forall_mem_cons]

/-- An edit empties no block. -/
theorem populated_alter (h : edit.alter admits P = some P') (hP : P.Populated) :
    P'.Populated := by
  cases alter_eq_some.mp h with
  | insertMember admitted done =>
    obtain ⟨before, content, after, rfl, rfl, hle, rfl⟩ := Blocks.insertMember_eq_ok.mp done
    obtain ⟨hbefore, hmembers, hafter⟩ := populated_parts.mp hP
    refine populated_parts.mpr ⟨hbefore, ?_, hafter⟩
    rw [ne_eq, ← List.length_eq_zero_iff, List.length_insertIdx_of_le_length hle]
    exact Nat.succ_ne_zero _
  | removeMember done others same =>
    obtain ⟨before, content, after, rfl, rfl, hmember, rfl⟩ := Blocks.removeMember_eq_ok.mp done
    obtain ⟨hbefore, hmembers, hafter⟩ := populated_parts.mp hP
    exact populated_parts.mpr
      ⟨hbefore, eraseIdx_ne_nil rfl hmember others, hafter⟩
  | replace there same admitted => exact hP.replaceChild
  | moveMember done =>
    obtain ⟨before, content, after, members, rfl, rfl, hmove, rfl⟩ :=
      Blocks.moveMember_eq_ok.mp done
    obtain ⟨hbefore, hmembers, hafter⟩ := populated_parts.mp hP
    refine populated_parts.mpr ⟨hbefore, ?_, hafter⟩
    rintro rfl
    exact hmembers (moveItem_perm hmove).symm.eq_nil
  | insertBlock inhabited admitted done =>
    intro content hcontent
    rcases List.mem_cons.mp ((insertItem_perm done).mem_iff.mp hcontent) with rfl | hold
    · exact inhabited
    · exact hP content hold
  | removeBlock done same =>
    exact fun content hcontent =>
      hP content ((removeItem_perm done).mem_iff.mpr (List.mem_cons_of_mem _ hcontent))
  | splitBlock done =>
    obtain ⟨before, content, after, rfl, rfl, hpos, hlt, rfl⟩ := Blocks.split_eq_ok.mp done
    obtain ⟨hbefore, hmembers, hafter⟩ := populated_parts.mp hP
    refine populated_parts.mpr ⟨hbefore, ?_, List.forall_mem_cons.mpr ⟨?_, hafter⟩⟩
    · simp only [ne_eq, List.take_eq_nil_iff, not_or]
      exact ⟨by omega, hmembers⟩
    · simp only [ne_eq, List.drop_eq_nil_iff]
      omega
  | mergeBlocks done there same =>
    obtain ⟨before, content, next, after, rfl, rfl, -, rfl⟩ := Blocks.merge_eq_ok.mp done
    obtain ⟨hbefore, hmembers, hafter⟩ := populated_parts.mp hP
    refine populated_parts.mpr ⟨hbefore, ?_, (List.forall_mem_cons.mp hafter).2⟩
    simp [hmembers]
  | moveBlock done =>
    exact fun content hcontent => hP content ((moveItem_perm done).mem_iff.mp hcontent)
  | changeReplication there same done =>
    obtain ⟨before, content, after, rfl, rfl, rfl⟩ := Blocks.setReplication_eq_ok.mp done
    obtain ⟨hbefore, hmembers, hafter⟩ := populated_parts.mp hP
    exact populated_parts.mpr ⟨hbefore, hmembers, hafter⟩
  | _ => trivial

/-- A property that fits still fits after an edit. -/
theorem fits_alter {grammar : Grammar} {kind name : String}
    (hadmits : ∀ node, admits node = true → grammar.Admits kind name node)
    (h : edit.alter admits P = some P') (hP : grammar.Fits kind name P) :
    grammar.Fits kind name P' := by
  refine ⟨populated_alter h hP.populated, fun slot child hchild => ?_⟩
  rcases admitted_alter h ⟨slot, hchild⟩ with ⟨slot', hold⟩ | hnew
  · exact hP.admits slot' child hold
  · exact hadmits child hnew

end Alter

section Effect

variable {grammar : Grammar} {document document' owner : Node} {edit : Edit}
  {P P' : Property Node}

/-- A node may stand under a property of a node of a kind. -/
def admits (grammar : Grammar) (kind name : String) (node : Node) : Bool :=
  (grammar.accepts kind name node.kind).isOk && (grammar.validate node).isOk

/-- The test of a node says whether it is admitted. -/
theorem admits_iff {kind name : String} {node : Node} :
    admits grammar kind name node = true ↔ grammar.Admits kind name node := by
  have hok : ∀ x : Except ShapeError Unit, x.isOk = true ↔ x = .ok () := by
    intro x
    cases x <;> simp [Except.isOk, Except.toBool]
  rw [admits, Bool.and_eq_true, hok, hok]
  exact ⟨fun h => ⟨h.1, h.2⟩, fun h => ⟨h.1, h.2⟩⟩

/-- The property that an edit changes, of the node that owns it: a value property may be one that
takes no part in the editing. -/
def target (grammar : Grammar) (owner : Node) : Edit → Option (Property Node)
  | setValue _ name _ _ => owner.property? name
  | edit => grammar.branch? owner edit.site.property

/-- What an edit makes of a document. -/
def effect (grammar : Grammar) (edit : Edit) (document : Node) : Option Node := do
  let owner ← grammar.reach document edit.site.owner
  let P ← edit.target grammar owner
  let P' ← edit.alter (admits grammar owner.kind edit.site.property) P
  return document.put edit.site.owner (owner.set edit.site.property P')

/-- An edit has an effect when its owner is reached, has the property and the edit makes something
of it. -/
theorem effect_eq_some : edit.effect grammar document = some document' ↔
    ∃ owner P P', grammar.reach document edit.site.owner = some owner ∧
      edit.target grammar owner = some P ∧
      edit.alter (admits grammar owner.kind edit.site.property) P = some P' ∧
      document' = document.put edit.site.owner (owner.set edit.site.property P') := by
  unfold effect
  simp only [Option.bind_eq_bind, Option.bind_eq_some_iff, Option.pure_def, Option.some.injEq]
  constructor
  · rintro ⟨owner, howner, P, hP, P', hP', rfl⟩
    exact ⟨owner, P, P', howner, hP, hP', rfl⟩
  · rintro ⟨owner, P, P', howner, hP, hP', rfl⟩
    exact ⟨owner, howner, P, hP, P', hP', rfl⟩

/-- The property that an edit changes is a property of the owner. -/
theorem property?_target (howner : owner.WellFormed) (h : edit.target grammar owner = some P) :
    owner.property? edit.site.property = some P := by
  cases edit with
  | setValue path name before after => exact h
  | _ => exact Grammar.property?_of_branch? howner.keys h

/-- The nodes under the property that an edit made are well-formed. -/
theorem WellFormed.below {allows : Node → Bool} (hedit : edit.WellFormed)
    (howner : owner.WellFormed) (hP : owner.property? edit.site.property = some P)
    (h : edit.alter allows P = some P') : ∀ node ∈ P'.nodes, node.WellFormed := by
  intro node hnode
  rcases nodes_alter h hnode with hold | hnew
  · exact Node.Everywhere.property howner hP hold
  · exact hedit node hnew

/-- A well-formed edit keeps a document well-formed. -/
theorem wellFormed_effect (hdocument : document.WellFormed) (hedit : edit.WellFormed)
    (h : edit.effect grammar document = some document') : document'.WellFormed := by
  obtain ⟨owner, P, P', hreach, htarget, halter, rfl⟩ := effect_eq_some.mp h
  have howner := Grammar.wellFormed_reach hdocument hreach
  exact Grammar.wellFormed_put hdocument hreach
    (howner.set (hedit.below howner (property?_target howner htarget) halter))

/-- A filled edit keeps a document filled. -/
theorem filled_effect (hdocument : document.WellFormed) (hfilled : document.Filled)
    (hedit : edit.Filled) (h : edit.effect grammar document = some document') :
    document'.Filled := by
  obtain ⟨owner, P, P', hreach, htarget, halter, rfl⟩ := effect_eq_some.mp h
  have howner := Grammar.wellFormed_reach hdocument hreach
  have hP := property?_target howner htarget
  have hfill := Grammar.everywhere_reach hdocument hfilled hreach
  refine Grammar.filled_put hdocument hfilled hreach (Node.Filled.set hfill ?_ fun node hnode => ?_)
  · exact filled_alter halter (hfill.here _ (Table.mem_of_get? hP))
  · rcases nodes_alter halter hnode with hold | hnew
    · exact hfill.property hP hold
    · exact hedit node hnew

/-- The owner of an edit stays valid. -/
theorem valid_owner (hvalid : grammar.Valid owner) (howner : owner.WellFormed)
    (hedit : edit.WellFormed) (htarget : edit.target grammar owner = some P)
    (halter : edit.alter (admits grammar owner.kind edit.site.property) P = some P') :
    grammar.Valid (owner.set edit.site.property P') := by
  have hP := property?_target howner htarget
  exact hvalid.set howner hP (kind_alter halter)
    (fun hbranch => fits_alter (fun node => admits_iff.mp) halter (hvalid.fits howner.keys hbranch))
    (hedit.below howner hP halter)

/-- A well-formed edit keeps a document valid. -/
theorem valid_effect (hdocument : document.WellFormed) (hvalid : grammar.Valid document)
    (hedit : edit.WellFormed) (h : edit.effect grammar document = some document') :
    grammar.Valid document' := by
  obtain ⟨owner, P, P', hreach, htarget, halter, rfl⟩ := effect_eq_some.mp h
  have howner := Grammar.wellFormed_reach hdocument hreach
  exact hvalid.put hdocument hreach
    (howner.set (hedit.below howner (property?_target howner htarget) halter))
    (Node.kind_set _ _ _) (valid_owner (hvalid.reach hdocument hreach) howner hedit htarget halter)

end Effect

end Edit

end TreeEditor
