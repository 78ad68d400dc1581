import TreeEditor.Proofs.Blocks

/-!
# Changes of lists taken back

What changes a list or a list of blocks has an operation that takes it back. After a removal any
item can be put back; it then stands in the place of the one that was there. A block that was joined
with the next one is split where the first one ended, and the second one gets a header.
-/

namespace TreeEditor

section Items

variable {α : Type} {as as' : List α} {a held : α} {position target : Nat} {delta : Int}

/-- An item that was inserted can be removed. -/
theorem removeItem_of_insertItem (h : insertItem position a as = .ok as') :
    removeItem position as' = .ok (a, as) := by
  obtain ⟨hle, rfl⟩ := insertItem_eq_ok.mp h
  refine removeItem_eq_ok.mpr ⟨?_, ?_⟩
  · rw [List.getElem?_insertIdx_self, if_pos hle]
  · rw [List.eraseIdx_insertIdx_self]

/-- An item can be put in the place of one that was removed. -/
theorem insertItem_of_removeItem (h : removeItem position as = .ok (held, as')) (a : α) :
    insertItem position a as' = .ok (as.set position a) := by
  obtain ⟨hheld, rfl⟩ := removeItem_eq_ok.mp h
  obtain ⟨hlt, -⟩ := List.getElem?_eq_some_iff.mp hheld
  refine insertItem_eq_ok.mpr ⟨?_, ?_⟩
  · rw [List.length_eraseIdx_of_lt hlt]
    omega
  · rw [List.insertIdx_eraseIdx_self hlt.ne]

/-- An item that was removed can be put back. -/
theorem insertItem_of_removeItem_self (h : removeItem position as = .ok (held, as')) :
    insertItem position held as' = .ok as := by
  obtain ⟨hlt, hget⟩ := List.getElem?_eq_some_iff.mp (removeItem_eq_ok.mp h).1
  rw [insertItem_of_removeItem h, ← hget, List.set_getElem_self]

/-- A move is taken back by the opposite move from where it arrived. -/
theorem moveItem_invert (h : moveItem position delta as = .ok (target, as')) :
    moveItem target (-delta) as' = .ok (position, as) := by
  obtain ⟨htarget, a, ha, rfl⟩ := moveItem_eq_ok.mp h
  obtain ⟨hlt, hcount, hsum, hin⟩ := moveTarget_eq_ok.mp htarget
  obtain ⟨_, hget⟩ := List.getElem?_eq_some_iff.mp ha
  have herase : (as.eraseIdx position).length = as.length - 1 := List.length_eraseIdx_of_lt hlt
  have hlength : ((as.eraseIdx position).insertIdx target a).length = as.length := by
    rw [List.length_insertIdx_of_le_length (by omega)]
    omega
  refine moveItem_eq_ok.mpr ⟨moveTarget_eq_ok.mpr ?_, a, ?_, ?_⟩
  · rw [hlength]
    omega
  · rw [List.getElem?_insertIdx_self, if_pos (by omega)]
  · rw [List.eraseIdx_insertIdx_self, ← hget, List.insertIdx_eraseIdx_getElem]

end Items

namespace Blocks

variable {α μ : Type} {blocks blocks' : List (Block α μ)} {block position target : Nat}
  {member held : μ} {header : Header α} {delta : Int}

/-- A member that was inserted can be removed. -/
theorem removeMember_of_insertMember
    (h : insertMember block position member blocks = .ok blocks') :
    removeMember block position blocks' = .ok (member, blocks) := by
  obtain ⟨before, content, after, rfl, rfl, hle, rfl⟩ := insertMember_eq_ok.mp h
  have hback := removeItem_eq_ok.mp (removeItem_of_insertItem (insertItem_eq_ok.mpr
    ⟨hle, (rfl : content.members.insertIdx position member = _)⟩))
  exact removeMember_eq_ok.mpr ⟨before, _, after, rfl, rfl, hback.1, by rw [← hback.2]⟩

/-- A member can be put in the place of one that was removed. -/
theorem insertMember_of_removeMember
    (h : removeMember block position blocks = .ok (held, blocks')) (member : μ) :
    insertMember block position member blocks' = .ok (blocks.modify block fun content =>
      { content with members := content.members.set position member }) := by
  obtain ⟨before, content, after, rfl, rfl, hheld, rfl⟩ := removeMember_eq_ok.mp h
  have hback := insertItem_eq_ok.mp (insertItem_of_removeItem (removeItem_eq_ok.mpr
    ⟨hheld, (rfl : content.members.eraseIdx position = _)⟩) member)
  exact insertMember_eq_ok.mpr
    ⟨before, _, after, rfl, rfl, hback.1, by rw [modify_parts, hback.2]⟩

/-- A member that was removed can be put back. -/
theorem insertMember_of_removeMember_self
    (h : removeMember block position blocks = .ok (held, blocks')) :
    insertMember block position held blocks' = .ok blocks := by
  obtain ⟨before, content, after, rfl, rfl, hheld, rfl⟩ := removeMember_eq_ok.mp h
  have hback := insertItem_eq_ok.mp (insertItem_of_removeItem_self (removeItem_eq_ok.mpr
    ⟨hheld, (rfl : content.members.eraseIdx position = _)⟩))
  exact insertMember_eq_ok.mpr ⟨before, _, after, rfl, rfl, hback.1, by rw [← hback.2]⟩

/-- A move of a member is taken back by the opposite move from where it arrived. -/
theorem moveMember_invert (h : moveMember block position delta blocks = .ok (target, blocks')) :
    moveMember block target (-delta) blocks' = .ok (position, blocks) := by
  obtain ⟨before, content, after, members, rfl, rfl, hmove, rfl⟩ := moveMember_eq_ok.mp h
  exact moveMember_eq_ok.mpr
    ⟨before, _, after, content.members, rfl, rfl, moveItem_invert hmove, rfl⟩

/-- The parts of a block that was split can be joined. -/
theorem merge_of_split (h : split block position header blocks = .ok blocks') :
    merge block blocks' = .ok (position, blocks) ∧
      ∃ members, blocks'[block + 1]? = some ⟨header, members⟩ := by
  obtain ⟨before, content, after, rfl, rfl, -, hlt, rfl⟩ := split_eq_ok.mp h
  refine ⟨merge_eq_ok.mpr ⟨before, _, _, after, rfl, rfl, ?_, ?_⟩, _,
    getElem?_parts_succ before after _ _⟩
  · rw [List.length_take_of_le hlt.le]
  · rw [List.take_append_drop]

/-- Blocks that were joined can be split where the first one ended, if neither was empty. -/
theorem split_of_merge (hpopulated : ∀ content ∈ blocks, content.members ≠ [])
    (h : merge block blocks = .ok (position, blocks')) (header : Header α) :
    split block position header blocks' =
      .ok (blocks.modify (block + 1) fun content => { content with header }) := by
  obtain ⟨before, content, next, after, rfl, rfl, rfl, rfl⟩ := merge_eq_ok.mp h
  have hcontent := List.length_pos_iff.mpr (hpopulated content (by simp))
  have hnext := List.length_pos_iff.mpr (hpopulated next (by simp))
  have hmodify := modify_parts (before ++ [content]) after next fun content =>
    { content with header }
  simp only [List.length_append, List.length_singleton, List.append_assoc,
    List.singleton_append] at hmodify
  refine split_eq_ok.mpr ⟨before, _, after, rfl, rfl, hcontent, ?_, ?_⟩
  · rw [List.length_append]
    omega
  · rw [List.take_left, List.drop_left, hmodify]

/-- A change of replication is taken back by the replication that was there. -/
theorem setReplication_invert {content : Block α μ} {replication : Replication}
    (h : setReplication block replication blocks = .ok blocks')
    (hcontent : blocks[block]? = some content) :
    setReplication block content.header.replication blocks' = .ok blocks ∧
      blocks'[block]? = some { content with header := { content.header with replication } } := by
  obtain ⟨before, held, after, rfl, rfl, rfl⟩ := setReplication_eq_ok.mp h
  rw [getElem?_parts, Option.some.injEq] at hcontent
  subst hcontent
  exact ⟨setReplication_eq_ok.mpr ⟨before, _, after, rfl, rfl, rfl⟩, getElem?_parts before after _⟩

end Blocks

end TreeEditor
