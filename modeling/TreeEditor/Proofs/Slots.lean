import TreeEditor.Proofs.Tree
import TreeEditor.Branch
import TreeEditor.Grammar.Validity

/-!
# Slots of properties and branches

The children of a property are what its slots hold (`Property.mem_children`), and likewise for the
handles of a branch (`Branch.mem_slots`). So whatever is said of children in the order of the
document can be said slot by slot. Replacing the child in a slot changes what that slot holds and
what no other one does (`Property.childAt?_replaceChild`).
-/

namespace TreeEditor

section Lists

variable {α μ : Type}

/-- The entries of a list with slots are the items at its positions. -/
theorem mem_listSlots {items : List μ} {slot : Slot} {item : μ} :
    (slot, item) ∈ listSlots items ↔
      ∃ position, slot = .list position ∧ items[position]? = some item := by
  unfold listSlots
  simp only [List.mem_map, Prod.mk.injEq]
  constructor
  · rintro ⟨⟨x, position⟩, hmem, rfl, rfl⟩
    exact ⟨position, rfl, List.mk_mem_zipIdx_iff_getElem?.mp hmem⟩
  · rintro ⟨position, rfl, hitem⟩
    exact ⟨(item, position), List.mk_mem_zipIdx_iff_getElem?.mpr hitem, rfl, rfl⟩

/-- The entries of a list of blocks with slots are the members at the positions of the blocks. -/
theorem mem_blockSlots {blocks : List (Block α μ)} {slot : Slot} {item : μ} :
    (slot, item) ∈ blockSlots blocks ↔ ∃ block position, slot = .member block position ∧
      (blocks[block]?.bind fun content => content.members[position]?) = some item := by
  unfold blockSlots
  simp only [List.mem_flatMap, List.mem_map, Prod.mk.injEq, Option.bind_eq_some_iff]
  constructor
  · rintro ⟨⟨content, block⟩, hblock, ⟨x, position⟩, hmember, rfl, rfl⟩
    exact ⟨block, position, rfl, content, List.mk_mem_zipIdx_iff_getElem?.mp hblock,
      List.mk_mem_zipIdx_iff_getElem?.mp hmember⟩
  · rintro ⟨block, position, rfl, content, hblock, hmember⟩
    exact ⟨(content, block), List.mk_mem_zipIdx_iff_getElem?.mpr hblock, (item, position),
      List.mk_mem_zipIdx_iff_getElem?.mpr hmember, rfl, rfl⟩

/-- The items of a list with slots are its items. -/
theorem map_snd_listSlots (items : List μ) : (listSlots items).map Prod.snd = items := by
  unfold listSlots
  rw [List.map_map]
  exact List.zipIdx_map_fst 0 items

/-- The items of a list of blocks with slots are its members. -/
theorem map_snd_blockSlots (blocks : List (Block α μ)) :
    (blockSlots blocks).map Prod.snd = blocks.flatMap Block.members := by
  have hmembers : (fun entry : Block α μ × Nat => (entry.1.members.zipIdx.map fun member =>
      (Slot.member entry.2 member.2, member.1)).map Prod.snd) = fun entry => entry.1.members := by
    funext entry
    rw [List.map_map]
    exact List.zipIdx_map_fst 0 entry.1.members
  unfold blockSlots
  rw [List.map_flatMap, hmembers]
  conv_rhs => rw [← List.zipIdx_map_fst 0 blocks, List.flatMap_map]

/-- The slots of a list are different. -/
theorem nodup_map_fst_listSlots (items : List μ) : ((listSlots items).map Prod.fst).Nodup := by
  have hpositions : (items.zipIdx.map Prod.snd).Nodup := by
    rw [List.zipIdx_map_snd]
    exact List.nodup_range'
  have hslots : (listSlots items).map Prod.fst = (items.zipIdx.map Prod.snd).map Slot.list := by
    rw [listSlots, List.map_map, List.map_map]
    rfl
  rw [hslots]
  exact hpositions.map fun _ _ heq => Slot.list.inj heq

/-- The slots of a list of blocks are different. -/
theorem nodup_map_fst_blockSlots (blocks : List (Block α μ)) :
    ((blockSlots blocks).map Prod.fst).Nodup := by
  have hblocks : blocks.zipIdx.Pairwise fun a b => a.2 ≠ b.2 := by
    rw [← List.pairwise_map, List.zipIdx_map_snd]
    exact List.nodup_range'
  rw [blockSlots, List.map_flatMap]
  refine List.nodup_flatMap.mpr ⟨fun entry _ => ?_, hblocks.imp ?_⟩
  · have hpositions : (entry.1.members.zipIdx.map Prod.snd).Nodup := by
      rw [List.zipIdx_map_snd]
      exact List.nodup_range'
    rw [List.map_map]
    have hslots := hpositions.map (f := Slot.member entry.2) fun _ _ heq => (Slot.member.inj heq).2
    rwa [List.map_map] at hslots
  · intro entry entry' hne slot hmem hmem'
    simp only [List.mem_map] at hmem hmem'
    obtain ⟨_, ⟨_, _, rfl⟩, rfl⟩ := hmem
    obtain ⟨_, ⟨_, _, rfl⟩, heq⟩ := hmem'
    exact hne (Slot.member.inj heq).1.symm

end Lists

/-- The kind of the properties that have a slot. -/
def Slot.kind : Slot → PropertyKind
  | placeholder => .placeholder
  | optional => .optional
  | list _ => .list
  | member _ _ => .blockList

namespace Property

variable {α β : Type}

/-- The child in a slot. An optional child that is not assigned is no child. -/
def childAt? : Property α → Slot → Option α
  | child node, .placeholder => some node
  | optional true item, .optional => item
  | list nodes, .list position => nodes[position]?
  | blockList blocks, .member block position =>
    blocks[block]?.bind fun content => content.members[position]?
  | _, _ => none

/-- A property with a child in a slot is of the kind that has such slots. -/
theorem kind_of_childAt? {property : Property α} {slot : Slot} {node : α}
    (h : property.childAt? slot = some node) : property.kind = slot.kind := by
  unfold childAt? at h
  split at h
  all_goals first | rfl | cases h

/-- The children of a property are what its slots hold. -/
theorem mem_children {property : Property α} {slot : Slot} {node : α} :
    (slot, node) ∈ property.children ↔ property.childAt? slot = some node := by
  cases property with
  | value leaf => simp [children, childAt?]
  | child node => cases slot <;> simp [children, childAt?, eq_comm]
  | optional assigned item => cases assigned <;> cases slot <;> simp [children, childAt?]
  | list nodes => cases slot <;> simp [children, childAt?, mem_listSlots]
  | blockList blocks => cases slot <;> simp [children, childAt?, mem_blockSlots]

/-- A child is one of the nodes under a property. -/
theorem mem_nodes_of_childAt? {property : Property α} {slot : Slot} {node : α}
    (h : property.childAt? slot = some node) : node ∈ property.nodes := by
  unfold childAt? at h
  split at h
  · cases h
    exact List.mem_singleton_self _
  · exact Option.mem_toList.mpr h
  · exact List.mem_of_getElem? h
  · obtain ⟨content, hblock, hmember⟩ := Option.bind_eq_some_iff.mp h
    exact List.mem_flatMap.mpr ⟨content, List.mem_of_getElem? hblock,
      List.mem_cons_of_mem _ (List.mem_cons_of_mem _ (List.mem_of_getElem? hmember))⟩
  · cases h

/-- The child in a slot of a property whose children are replaced is the replaced one. -/
theorem childAt?_map (f : α → β) (property : Property α) (slot : Slot) :
    (property.map f).childAt? slot = (property.childAt? slot).map f := by
  cases property with
  | value leaf => rfl
  | child node => cases slot <;> rfl
  | optional assigned item => cases assigned <;> cases slot <;> rfl
  | list nodes => cases slot <;> simp [map, childAt?]
  | blockList blocks =>
    cases slot with
    | member block position =>
      cases h : blocks[block]? <;> simp [map, childAt?, Block.map, h]
    | _ => rfl

/-- No block of a property is empty. -/
def Populated : Property α → Prop
  | blockList blocks => ∀ content ∈ blocks, content.members ≠ []
  | _ => True

/-- Replacing all children empties no block and fills none. -/
theorem populated_map (f : α → β) {property : Property α} :
    (property.map f).Populated ↔ property.Populated := by
  cases property <;> simp [map, Populated, Block.map]

/-- The check for empty blocks passes exactly when there are none. -/
theorem checkBlocks_eq_ok {kind name : String} {property : Property α} :
    property.checkBlocks kind name = .ok () ↔ property.Populated := by
  cases property with
  | blockList blocks =>
    unfold checkBlocks
    dsimp only [Populated]
    cases hfound : firstEmptyBlock blocks with
    | some block =>
      have hsome : (firstEmptyBlock blocks).isSome := by rw [hfound]; rfl
      simp only [reduceCtorEq, false_iff]
      simpa [firstEmptyBlock] using hsome
    | none =>
      simp only [true_iff]
      simpa [firstEmptyBlock] using hfound
  | _ => exact iff_of_true rfl trivial

/-! ## Replacing a child -/

/-- A property with the child in a slot replaced; a slot without a child leaves it as it is. -/
def replaceChild (slot : Slot) (child : α) : Property α → Property α
  | .child node =>
    match slot with
    | .placeholder => .child child
    | _ => .child node
  | .optional assigned item =>
    match slot with
    | .optional => .optional assigned (item.map fun _ => child)
    | _ => .optional assigned item
  | .list nodes =>
    match slot with
    | .list position => .list (nodes.set position child)
    | _ => .list nodes
  | .blockList blocks =>
    match slot with
    | .member block position =>
      .blockList (blocks.modify block fun content =>
        { content with members := content.members.set position child })
    | _ => .blockList blocks
  | property => property

section ReplaceChild

variable {property : Property α} {slot : Slot} {node : α}

/-- Replacing a child keeps the kind of a property. -/
@[simp]
theorem kind_replaceChild : (property.replaceChild slot node).kind = property.kind := by
  cases property <;> cases slot <;> rfl

/-- Replacing a child changes what its slot holds and what no other one does. -/
theorem childAt?_replaceChild (other : Slot) :
    (property.replaceChild slot node).childAt? other =
      if other = slot then (property.childAt? slot).map fun _ => node
      else property.childAt? other := by
  cases property with
  | value leaf => cases slot <;> simp [replaceChild, childAt?]
  | child old => cases slot <;> cases other <;> simp [replaceChild, childAt?]
  | optional assigned item =>
    cases assigned <;> cases slot <;> cases other <;> simp [replaceChild, childAt?]
  | list nodes =>
    cases slot <;> cases other <;> simp [replaceChild, childAt?]
    rename_i position position'
    rw [List.getElem?_set]
    by_cases h : position = position'
    · subst h
      by_cases hlt : position < nodes.length <;> simp [hlt]
    · simp [h, Ne.symm h]
  | blockList blocks =>
    cases slot with
    | member block position =>
      cases other with
      | member block' position' =>
        simp only [replaceChild, childAt?, Slot.member.injEq, List.getElem?_modify]
        by_cases hblock : block = block'
        · subst hblock
          cases blocks[block]? with
          | none => simp
          | some content =>
            by_cases hposition : position = position'
            · subst hposition
              by_cases hlt : position < content.members.length <;> simp [hlt]
            · simp [hposition, Ne.symm hposition]
        · simp [hblock, Ne.symm hblock]
      | _ => simp [replaceChild, childAt?]
    | _ => cases other <;> simp [replaceChild, childAt?]

/-- The nodes under a property with a child replaced are the new child and some of the old ones. -/
theorem mem_nodes_replaceChild {other : α}
    (h : other ∈ (property.replaceChild slot node).nodes) :
    other = node ∨ other ∈ property.nodes := by
  cases property with
  | value leaf => cases slot <;> cases h
  | child old =>
    cases slot <;> simp_all [replaceChild, nodes]
  | optional assigned item =>
    cases slot with
    | optional =>
      cases item <;> simp_all [replaceChild, nodes]
    | _ => exact .inr h
  | list nodes =>
    cases slot with
    | list position => exact (List.mem_or_eq_of_mem_set h).symm
    | _ => exact .inr h
  | blockList blocks =>
    cases slot with
    | member block position =>
      obtain ⟨content, hcontent, hnode⟩ := List.mem_flatMap.mp h
      obtain ⟨index, hindex⟩ := List.mem_iff_getElem?.mp hcontent
      rw [List.getElem?_modify] at hindex
      obtain ⟨old, hold, heq⟩ := Option.map_eq_some_iff.mp hindex
      have hmem : ∀ x ∈ old.header.pattern :: old.header.source :: old.members,
          x ∈ (blockList blocks).nodes := fun x hx =>
        List.mem_flatMap.mpr ⟨old, List.mem_of_getElem? hold, hx⟩
      split at heq
      · subst heq
        rcases List.mem_cons.mp hnode with hpattern | hnode
        · exact .inr (hmem _ (by simp [hpattern]))
        · rcases List.mem_cons.mp hnode with hsource | hmember
          · exact .inr (hmem _ (by simp [hsource]))
          · rcases List.mem_or_eq_of_mem_set hmember with hmember | heq
            · exact .inr (hmem _ (by simp [hmember]))
            · exact .inl heq
      · subst heq
        exact .inr (hmem _ hnode)
    | _ => exact .inr h

/-- Replacing a child by itself changes nothing. -/
theorem replaceChild_self (h : property.childAt? slot = some node) :
    property.replaceChild slot node = property := by
  unfold childAt? at h
  split at h
  · cases h
    rfl
  · simp [replaceChild, h]
  · rename_i nodes position
    obtain ⟨hlt, hget⟩ := List.getElem?_eq_some_iff.mp h
    simp [replaceChild, ← hget]
  · rename_i blocks block position
    obtain ⟨content, hblock, hmember⟩ := Option.bind_eq_some_iff.mp h
    obtain ⟨hlt, hget⟩ := List.getElem?_eq_some_iff.mp hmember
    have hsame : blocks.modify block (fun content =>
        { content with members := content.members.set position node }) = blocks := by
      apply List.ext_getElem?
      intro index
      rw [List.getElem?_modify]
      by_cases heq : block = index
      · subst heq
        simp [hblock, ← hget]
      · simp [heq]
    rw [replaceChild, hsame]
  · cases h

/-- Of two children put into one slot the second remains. -/
theorem replaceChild_replaceChild (node' : α) :
    (property.replaceChild slot node).replaceChild slot node' =
      property.replaceChild slot node' := by
  cases property with
  | value leaf => cases slot <;> rfl
  | child old => cases slot <;> rfl
  | optional assigned item => cases slot <;> cases item <;> rfl
  | list nodes => cases slot <;> simp [replaceChild]
  | blockList blocks =>
    cases slot <;> simp only [replaceChild]
    rename_i block position
    congr 1
    apply List.ext_getElem?
    intro index
    simp only [List.getElem?_modify]
    by_cases heq : block = index
    · cases blocks[index]? <;> simp [heq]
    · cases blocks[index]? <;> simp [heq]

/-- Replacing a child leaves no block empty that was not. -/
theorem Populated.replaceChild (h : property.Populated) :
    (property.replaceChild slot node).Populated := by
  cases property with
  | blockList blocks =>
    cases slot with
    | member block position =>
      intro content hcontent
      obtain ⟨index, hindex⟩ := List.mem_iff_getElem?.mp hcontent
      rw [List.getElem?_modify] at hindex
      obtain ⟨old, hold, heq⟩ := Option.map_eq_some_iff.mp hindex
      have hne := h old (List.mem_of_getElem? hold)
      split at heq
      · subst heq
        simpa using hne
      · subst heq
        exact hne
    | _ => exact h
  | _ => cases slot <;> trivial

/-- Replacing a child empties no assigned optional child. -/
theorem replaceChild_ne_optional (h : property ≠ .optional true none) :
    property.replaceChild slot node ≠ .optional true none := by
  cases property with
  | optional assigned item =>
    cases slot <;> cases item <;> cases assigned <;> simp_all [replaceChild]
  | _ => cases slot <;> simp [replaceChild]

end ReplaceChild

end Property

namespace Branch

/-- The handles of a branch are what its slots hold. -/
theorem mem_slots {branch : Branch} {slot : Slot} {child : Handle} :
    (slot, child) ∈ branch.slots ↔ branch.childAt? slot = some child := by
  cases branch with
  | placeholder held => cases slot <;> simp [slots, childAt?, eq_comm]
  | optional held => cases slot <;> simp [slots, childAt?, eq_comm]
  | list children => cases slot <;> simp [slots, childAt?, mem_listSlots]
  | blockList blocks => cases slot <;> simp [slots, childAt?, mem_blockSlots]

/-- The children of a branch are what its slots hold. -/
theorem mem_children {branch : Branch} {child : Handle} :
    child ∈ branch.children ↔ ∃ slot, branch.childAt? slot = some child := by
  rw [children, List.mem_map]
  constructor
  · rintro ⟨⟨slot, held⟩, hmem, rfl⟩
    exact ⟨slot, mem_slots.mp hmem⟩
  · rintro ⟨slot, hslot⟩
    exact ⟨(slot, child), mem_slots.mpr hslot, rfl⟩

/-- The slots of a branch are different. -/
theorem nodup_slots (branch : Branch) : (branch.slots.map Prod.fst).Nodup := by
  cases branch with
  | placeholder child => exact List.nodup_singleton _
  | optional child => exact List.nodup_singleton _
  | list children => exact nodup_map_fst_listSlots children
  | blockList blocks => exact nodup_map_fst_blockSlots blocks

end Branch

end TreeEditor
