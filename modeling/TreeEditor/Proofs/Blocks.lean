import TreeEditor.Proofs.Sequence

/-!
# Lists of blocks that correspond

The laws of a sequence for lists of blocks. Two blocks correspond when their headers do and their
members do, and edits of corresponding lists of blocks go through alike with corresponding results.

What an edit gives is stated with the block that is changed set apart from the ones before and after
it: the number of those before is the position of the block.
-/

namespace TreeEditor

/-- Two blocks correspond when their headers and their members do. -/
structure Block.Corresponds {α β μ ν : Type} (Q : Header α → Header β → Prop) (R : μ → ν → Prop)
    (a : Block α μ) (b : Block β ν) : Prop where
  header : Q a.header b.header
  members : List.Forall₂ R a.members b.members

namespace Blocks

section Parts

variable {γ : Type} (before after : List γ) (item next : γ)

/-- Every item of a list stands between the ones before and the ones after it. -/
theorem exists_parts {items : List γ} {position : Nat} {item : γ}
    (h : items[position]? = some item) :
    ∃ before after, items = before ++ item :: after ∧ before.length = position := by
  obtain ⟨hlt, rfl⟩ := List.getElem?_eq_some_iff.mp h
  exact ⟨items.take position, items.drop (position + 1), by simp, by simp; omega⟩

/-- The item after so many ones. -/
@[simp]
theorem getElem?_parts : (before ++ item :: after)[before.length]? = some item := by simp

/-- The item after so many ones and one more. -/
@[simp]
theorem getElem?_parts_succ :
    (before ++ item :: next :: after)[before.length + 1]? = some next := by simp

/-- Changing the item after so many ones. -/
@[simp]
theorem modify_parts (f : γ → γ) :
    (before ++ item :: after).modify before.length f = before ++ f item :: after := by
  induction before with
  | nil => rfl
  | cons first rest ih => simpa using ih

/-- Inserting an item after so many ones and one more. -/
@[simp]
theorem insertIdx_parts_succ :
    (before ++ item :: after).insertIdx (before.length + 1) next =
      before ++ item :: next :: after := by
  induction before with
  | nil => rfl
  | cons first rest ih => simpa using ih

/-- Erasing the item after so many ones and one more. -/
@[simp]
theorem eraseIdx_parts_succ :
    (before ++ item :: next :: after).eraseIdx (before.length + 1) = before ++ item :: after := by
  induction before with
  | nil => rfl
  | cons first rest ih => simpa using ih

end Parts

section Results

variable {α μ : Type} {block position : Nat} {member : μ} {blocks blocks' : List (Block α μ)}

/-- A block is there exactly when the list has one at the position. -/
theorem blockAt_eq_ok {content : Block α μ} :
    blockAt block blocks = .ok content ↔ blocks[block]? = some content := itemAt_eq_ok

/-- Where two blocks can be joined there is a second one. -/
theorem lt_of_checkMerge {position : Nat} (h : checkMerge block blocks = .ok position) :
    block + 1 < blocks.length := by
  obtain ⟨first, -, h⟩ := bind_eq_ok.mp h
  split at h
  · assumption
  · cases h

/-- The block whose members are set has those, and the others are as before. -/
theorem getElem?_setMembers (members : List μ) (other : Nat) :
    (setMembers block members blocks)[other]? =
      if block = other then blocks[other]?.map fun content => { content with members }
      else blocks[other]? := by
  rw [setMembers, List.getElem?_modify]
  split <;> simp

/-- Setting members again replaces those set before. -/
theorem setMembers_setMembers (members members' : List μ) :
    setMembers block members' (setMembers block members blocks) =
      setMembers block members' blocks := by
  rw [setMembers, setMembers, List.modify_modify_eq]
  rfl

/-- Setting the members that a block has changes nothing. -/
theorem setMembers_self {content : Block α μ} (h : blocks[block]? = some content) :
    setMembers block content.members blocks = blocks := by
  obtain ⟨before, after, rfl, rfl⟩ := exists_parts h
  simp [setMembers]

/-- The members of a block can be set before it is inserted. -/
theorem setMembers_insertIdx (content : Block α μ) (members : List μ)
    (h : block ≤ blocks.length) :
    setMembers block members (blocks.insertIdx block content) =
      blocks.insertIdx block { content with members } := by
  apply List.ext_getElem?
  intro other
  rw [getElem?_setMembers]
  split
  · rename_i heq
    subst heq
    rw [List.getElem?_insertIdx_self, List.getElem?_insertIdx_self, if_pos h, if_pos h]
    rfl
  · rename_i hne
    rw [List.getElem?_insertIdx, List.getElem?_insertIdx, if_neg (Ne.symm hne),
      if_neg (Ne.symm hne)]

/-- A member can be put behind all others of a block. -/
theorem insertMember_length (member : μ) {content : Block α μ}
    (hcontent : blocks[block]? = some content) :
    insertMember block content.members.length member blocks =
      .ok (setMembers block (content.members ++ [member]) blocks) := by
  have hlast : insertItem content.members.length member content.members =
      .ok (content.members ++ [member]) :=
    insertItem_eq_ok.mpr ⟨le_rfl, by rw [List.insertIdx_length_self]⟩
  rw [insertMember, blockAt_eq_ok.mpr hcontent, ok_bind, hlast, ok_bind]
  rfl

/-- What an insertion of a member gives. -/
theorem insertMember_eq_ok :
    insertMember block position member blocks = .ok blocks' ↔
      ∃ before content after, blocks = before ++ content :: after ∧ before.length = block ∧
        position ≤ content.members.length ∧
        blocks' = before ++ ⟨content.header, content.members.insertIdx position member⟩ ::
          after := by
  unfold insertMember
  simp only [bind_eq_ok, blockAt_eq_ok, insertItem_eq_ok, pure_eq_ok, Except.ok.injEq]
  constructor
  · rintro ⟨content, hblock, _, ⟨hle, rfl⟩, rfl⟩
    obtain ⟨before, after, rfl, rfl⟩ := exists_parts hblock
    exact ⟨before, content, after, rfl, rfl, hle, by simp [setMembers]⟩
  · rintro ⟨before, content, after, rfl, rfl, hle, rfl⟩
    exact ⟨content, by simp, _, ⟨hle, rfl⟩, by simp [setMembers]⟩

/-- What a removal of a member gives. -/
theorem removeMember_eq_ok :
    removeMember block position blocks = .ok (member, blocks') ↔
      ∃ before content after, blocks = before ++ content :: after ∧ before.length = block ∧
        content.members[position]? = some member ∧
        blocks' = before ++ ⟨content.header, content.members.eraseIdx position⟩ :: after := by
  unfold removeMember
  simp only [bind_eq_ok, blockAt_eq_ok, pure_eq_ok, Except.ok.injEq, Prod.exists,
    removeItem_eq_ok, Prod.mk.injEq]
  constructor
  · rintro ⟨content, hblock, _, _, ⟨hmember, rfl⟩, rfl, rfl⟩
    obtain ⟨before, after, rfl, rfl⟩ := exists_parts hblock
    exact ⟨before, content, after, rfl, rfl, hmember, by simp [setMembers]⟩
  · rintro ⟨before, content, after, rfl, rfl, hmember, rfl⟩
    exact ⟨content, by simp, member, _, ⟨hmember, rfl⟩, rfl, by simp [setMembers]⟩

/-- What a move of a member gives. -/
theorem moveMember_eq_ok {delta : Int} {target : Nat} :
    moveMember block position delta blocks = .ok (target, blocks') ↔
      ∃ before content after members, blocks = before ++ content :: after ∧
        before.length = block ∧ moveItem position delta content.members = .ok (target, members) ∧
        blocks' = before ++ ⟨content.header, members⟩ :: after := by
  unfold moveMember
  simp only [bind_eq_ok, blockAt_eq_ok, pure_eq_ok, Except.ok.injEq, Prod.exists, Prod.mk.injEq]
  constructor
  · rintro ⟨content, hblock, _, members, hmove, rfl, rfl⟩
    obtain ⟨before, after, rfl, rfl⟩ := exists_parts hblock
    exact ⟨before, content, after, members, rfl, rfl, hmove, by simp [setMembers]⟩
  · rintro ⟨before, content, after, members, rfl, rfl, hmove, rfl⟩
    exact ⟨content, by simp, target, members, hmove, rfl, by simp [setMembers]⟩

/-- What splitting a block gives. -/
theorem split_eq_ok {header : Header α} :
    split block position header blocks = .ok blocks' ↔
      ∃ before content after, blocks = before ++ content :: after ∧ before.length = block ∧
        0 < position ∧ position < content.members.length ∧
        blocks' = before ++ ⟨content.header, content.members.take position⟩ ::
          ⟨header, content.members.drop position⟩ :: after := by
  unfold split checkSplit
  simp only [bind_eq_ok, blockAt_eq_ok]
  constructor
  · rintro ⟨_, ⟨content, hblock, hcheck⟩, content', hblock', h⟩
    rw [hblock] at hblock'
    cases hblock'
    obtain ⟨before, after, rfl, rfl⟩ := exists_parts hblock
    split at hcheck
    · rename_i hbounds
      cases h
      exact ⟨before, content, after, rfl, rfl, hbounds.1, hbounds.2, by simp [setMembers]⟩
    · cases hcheck
  · rintro ⟨before, content, after, rfl, rfl, hpos, hlt, rfl⟩
    exact ⟨(), ⟨content, by simp, by rw [if_pos ⟨hpos, hlt⟩]; rfl⟩, content, by simp,
      by simp [setMembers]⟩

/-- What joining a block with the next one gives. -/
theorem merge_eq_ok {count : Nat} :
    merge block blocks = .ok (count, blocks') ↔
      ∃ before content next after, blocks = before ++ content :: next :: after ∧
        before.length = block ∧ count = content.members.length ∧
        blocks' = before ++ ⟨content.header, content.members ++ next.members⟩ :: after := by
  unfold merge checkMerge
  simp only [bind_eq_ok, blockAt_eq_ok]
  constructor
  · -- The block that is read first and the one that is read again are the same.
    rintro ⟨_, ⟨content, hblock, hcheck⟩, content', hblock', next, hnext, h⟩
    rw [hblock] at hblock'
    cases hblock'
    obtain ⟨before, rest, rfl, rfl⟩ := exists_parts hblock
    have hrest : rest[0]? = some next := by
      rw [List.getElem?_append_right (by omega)] at hnext
      simpa using hnext
    obtain ⟨after, rfl⟩ : ∃ after, rest = next :: after := by
      cases rest with
      | nil => cases hrest
      | cons first after =>
        cases hrest
        exact ⟨after, rfl⟩
    split at hcheck
    · cases hcheck
      cases h
      exact ⟨before, content, next, after, rfl, rfl, rfl, by simp [setMembers]⟩
    · cases hcheck
  · rintro ⟨before, content, next, after, rfl, rfl, rfl, rfl⟩
    exact ⟨content.members.length, ⟨content, by simp, by rw [if_pos (by simp)]; rfl⟩, content,
      by simp, next, by simp, by simp [setMembers]⟩

/-- Two blocks are joined where the check for it goes through. -/
theorem merge_of_checkMerge {position : Nat} (h : checkMerge block blocks = .ok position) :
    ∃ blocks', merge block blocks = .ok (position, blocks') := by
  have hnext := lt_of_checkMerge h
  obtain ⟨content, hcontent⟩ := exists_getElem?.mpr (Nat.lt_of_succ_lt hnext)
  obtain ⟨next, hnext⟩ := exists_getElem?.mpr hnext
  unfold merge
  rw [h, ok_bind, blockAt_eq_ok.mpr hcontent, ok_bind, blockAt_eq_ok.mpr hnext, ok_bind]
  exact ⟨_, rfl⟩

/-- A block is split where the check for it goes through. -/
theorem split_of_checkSplit {header : Header α} (h : checkSplit block position blocks = .ok ()) :
    ∃ blocks', split block position header blocks = .ok blocks' := by
  obtain ⟨content, hcontent, -⟩ := bind_eq_ok.mp h
  unfold split
  rw [h, ok_bind, hcontent, ok_bind]
  exact ⟨_, rfl⟩

/-- What a change of replication gives. -/
theorem setReplication_eq_ok {replication : Replication} :
    setReplication block replication blocks = .ok blocks' ↔
      ∃ before content after, blocks = before ++ content :: after ∧ before.length = block ∧
        blocks' = before ++ ⟨{ content.header with replication }, content.members⟩ :: after := by
  unfold setReplication
  simp only [bind_eq_ok, blockAt_eq_ok, pure_eq_ok, Except.ok.injEq]
  constructor
  · rintro ⟨content, hblock, rfl⟩
    obtain ⟨before, after, rfl, rfl⟩ := exists_parts hblock
    exact ⟨before, content, after, rfl, rfl, by simp⟩
  · rintro ⟨before, content, after, rfl, rfl, rfl⟩
    exact ⟨content, by simp, by simp⟩

end Results

/-! ## Correspondence -/

section Correspondence

variable {α β μ ν : Type} {Q : Header α → Header β → Prop} {R : μ → ν → Prop}
  {as : List (Block α μ)} {bs : List (Block β ν)}
  (h : List.Forall₂ (Block.Corresponds Q R) as bs)

include h

/-- Corresponding lists of blocks get corresponding members. -/
theorem setMembers_rel {members : List μ} {members' : List ν}
    (hmembers : List.Forall₂ R members members') (block : Nat) :
    List.Forall₂ (Block.Corresponds Q R) (setMembers block members as)
      (setMembers block members' bs) := by
  refine forall₂_modify h (fun a b hab => ?_) block
  exact ⟨hab.header, hmembers⟩

/-- Corresponding lists of blocks take corresponding members alike. -/
theorem insertMember_rel {a : μ} {b : ν} (hab : R a b) (block position : Nat) :
    Option.Rel (List.Forall₂ (Block.Corresponds Q R))
      (insertMember block position a as).toOption (insertMember block position b bs).toOption := by
  unfold insertMember
  refine rel_step (itemAt_rel h block) fun content content' hcontent => ?_
  exact rel_step (insertItem_rel hcontent.members hab position) fun members members' hmembers =>
    .some (setMembers_rel h hmembers block)

/-- Corresponding lists of blocks give up corresponding members. -/
theorem removeMember_rel (block position : Nat) :
    Option.Rel (Beside R (Block.Corresponds Q R)) (removeMember block position as).toOption
      (removeMember block position bs).toOption := by
  unfold removeMember
  refine rel_step (itemAt_rel h block) fun content content' hcontent => ?_
  exact rel_step (removeItem_rel hcontent.members position) fun x y hxy =>
    .some ⟨hxy.1, setMembers_rel h hxy.2 block⟩

/-- Members of corresponding lists of blocks move alike. -/
theorem moveMember_rel (block position : Nat) (delta : Int) :
    Option.Rel (Beside Eq (Block.Corresponds Q R)) (moveMember block position delta as).toOption
      (moveMember block position delta bs).toOption := by
  unfold moveMember
  refine rel_step (itemAt_rel h block) fun content content' hcontent => ?_
  exact rel_step (moveItem_rel hcontent.members position delta) fun x y hxy =>
    .some ⟨hxy.1, setMembers_rel h hxy.2 block⟩

/-- Corresponding lists of blocks are split alike. -/
theorem split_rel {header : Header α} {header' : Header β} (hheader : Q header header')
    (block position : Nat) :
    Option.Rel (List.Forall₂ (Block.Corresponds Q R))
      (split block position header as).toOption (split block position header' bs).toOption := by
  unfold split checkSplit
  refine rel_step (R := fun _ _ => True) ?_ fun _ _ _ => ?_
  · refine rel_step (itemAt_rel h block) fun content content' hcontent => ?_
    rw [hcontent.members.length_eq]
    by_cases hbounds : 0 < position ∧ position < content'.members.length
    · simp only [if_pos hbounds]
      exact .some trivial
    · simp only [if_neg hbounds]
      exact .none
  · refine rel_step (itemAt_rel h block) fun content content' hcontent => .some ?_
    exact forall₂_insertIdx
      (setMembers_rel h (List.forall₂_take position hcontent.members) block)
      ⟨hheader, List.forall₂_drop position hcontent.members⟩ _

/-- Blocks of corresponding lists are joined alike. -/
theorem merge_rel (block : Nat) :
    Option.Rel (Beside Eq (Block.Corresponds Q R)) (merge block as).toOption
      (merge block bs).toOption := by
  unfold merge checkMerge
  refine rel_step (R := Eq) ?_ fun count count' hcount => ?_
  · refine rel_step (itemAt_rel h block) fun content content' hcontent => ?_
    rw [hcontent.members.length_eq, h.length_eq]
    split
    · exact .some rfl
    · exact .none
  · refine rel_step (itemAt_rel h block) fun content content' hcontent => ?_
    refine rel_step (itemAt_rel h (block + 1)) fun next next' hnext => .some ⟨hcount, ?_⟩
    exact setMembers_rel (forall₂_eraseIdx h (block + 1))
      (List.rel_append hcontent.members hnext.members) block

/-- Blocks of corresponding lists change their replication alike. -/
theorem setReplication_rel {replication : Replication}
    (hQ : ∀ a b, Q a b → Q { a with replication } { b with replication }) (block : Nat) :
    Option.Rel (List.Forall₂ (Block.Corresponds Q R))
      (setReplication block replication as).toOption
      (setReplication block replication bs).toOption := by
  unfold setReplication
  refine rel_step (itemAt_rel h block) fun content content' hcontent => .some ?_
  refine forall₂_modify h (fun a b hab => ?_) block
  exact ⟨hQ _ _ hab.header, hab.members⟩

end Correspondence

/-! ## Nothing is lost -/

section Members

variable {α μ : Type} {block position : Nat} {member : μ} {blocks blocks' : List (Block α μ)}

/-- The members of all blocks together. -/
def allMembers (blocks : List (Block α μ)) : List μ := blocks.flatMap Block.members

/-- The members of blocks set apart. -/
theorem allMembers_parts (before after : List (Block α μ)) (content : Block α μ) :
    (allMembers (before ++ content :: after)).Perm
      (content.members ++ (allMembers before ++ allMembers after)) := by
  simp only [allMembers, List.flatMap_append, List.flatMap_cons]
  exact (List.perm_append_comm_assoc _ _ _)

/-- After an insertion the inserted member is there beside the others. -/
theorem insertMember_perm (h : insertMember block position member blocks = .ok blocks') :
    (allMembers blocks').Perm (member :: allMembers blocks) := by
  obtain ⟨before, content, after, rfl, rfl, hle, rfl⟩ := insertMember_eq_ok.mp h
  refine (allMembers_parts _ _ _).trans (.trans ?_ ((allMembers_parts _ _ _).symm.cons member))
  exact (List.perm_insertIdx member content.members hle).append_right _

/-- Before a removal the removed member was there beside the others. -/
theorem removeMember_perm (h : removeMember block position blocks = .ok (member, blocks')) :
    (allMembers blocks).Perm (member :: allMembers blocks') := by
  obtain ⟨before, content, after, rfl, rfl, hmember, rfl⟩ := removeMember_eq_ok.mp h
  refine (allMembers_parts _ _ _).trans (.trans ?_ ((allMembers_parts _ _ _).symm.cons member))
  exact (removeItem_perm (removeItem_eq_ok.mpr ⟨hmember, rfl⟩)).append_right _

/-- A move of a member keeps the members. -/
theorem moveMember_perm {delta : Int} {target : Nat}
    (h : moveMember block position delta blocks = .ok (target, blocks')) :
    (allMembers blocks').Perm (allMembers blocks) := by
  obtain ⟨before, content, after, members, rfl, rfl, hmove, rfl⟩ := moveMember_eq_ok.mp h
  exact (allMembers_parts _ _ _).trans
    (((moveItem_perm hmove).append_right _).trans (allMembers_parts _ _ _).symm)

/-- An insertion of an empty block keeps the members. -/
theorem insertBlock_perm {header : Header α}
    (h : insertBlock block ⟨header, []⟩ blocks = .ok blocks') :
    (allMembers blocks').Perm (allMembers blocks) :=
  (insertItem_perm h).flatMap_right _

/-- Before a removal the members of the removed block were there beside the others. -/
theorem removeBlock_perm {content : Block α μ}
    (h : removeBlock block blocks = .ok (content, blocks')) :
    (allMembers blocks).Perm (content.members ++ allMembers blocks') :=
  (removeItem_perm h).flatMap_right _

/-- A move of a block keeps the members. -/
theorem moveBlock_perm {delta : Int} {target : Nat}
    (h : moveBlock block delta blocks = .ok (target, blocks')) :
    (allMembers blocks').Perm (allMembers blocks) :=
  (moveItem_perm h).flatMap_right _

/-- Splitting a block keeps the members and their order. -/
theorem allMembers_split {header : Header α}
    (h : split block position header blocks = .ok blocks') :
    allMembers blocks' = allMembers blocks := by
  obtain ⟨before, content, after, rfl, rfl, -, -, rfl⟩ := split_eq_ok.mp h
  simp only [allMembers, List.flatMap_append, List.flatMap_cons, ← List.append_assoc]
  rw [List.append_assoc _ (List.take _ _), List.take_append_drop]

/-- Joining blocks keeps the members and their order. -/
theorem allMembers_merge {count : Nat} (h : merge block blocks = .ok (count, blocks')) :
    allMembers blocks' = allMembers blocks := by
  obtain ⟨before, content, next, after, rfl, rfl, -, rfl⟩ := merge_eq_ok.mp h
  simp [allMembers]

/-- A change of replication keeps the members and their order. -/
theorem allMembers_setReplication {replication : Replication}
    (h : setReplication block replication blocks = .ok blocks') :
    allMembers blocks' = allMembers blocks := by
  obtain ⟨before, content, after, rfl, rfl, rfl⟩ := setReplication_eq_ok.mp h
  simp [allMembers]

end Members

end Blocks

end TreeEditor
