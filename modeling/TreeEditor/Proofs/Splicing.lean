import TreeEditor.Proofs.Blocks

/-!
# What the edits of a sequence do

Every edit of a sequence or of a list of blocks goes by its check (`GoesBy`): it is refused where
the check refuses, for the same reason, and goes through everywhere else. A refused edit gives no
list, so whoever holds the old one goes on with it. What an edit that goes through does to the items
is said with one relation: a list is another one with a run of items put in at a position
(`Spliced`). An insertion puts a run in, a removal takes one out, and a move takes one out and puts
it in again elsewhere, among the others as they were. Splitting and joining blocks leaves the
members as they are and adds or drops a boundary between blocks (`Blocks.Parted`).

Joining the parts of a split block gives the block back. Splitting two joined blocks gives them back
when both have members; else the split is refused, since it would make a part without members.
-/

namespace TreeEditor

/-! ## Steps and their checks -/

section GoesBy

variable {ε α β γ : Type} {check : Except ε α} {step : Except ε β} {effect : α → β → Prop}

/-- A step goes by a check: it fails where the check fails, for the same reason, and where the check
passes it goes through with a certain effect. -/
def GoesBy (step : Except ε β) (check : Except ε α) (effect : α → β → Prop) : Prop :=
  match check with
  | .error reason => step = .error reason
  | .ok a => ∃ b, step = .ok b ∧ effect a b

/-- A step that makes the check first goes by it if the rest of the step does not fail. -/
theorem GoesBy.of_check {f : α → Except ε β}
    (h : ∀ a, check = .ok a → ∃ b, f a = .ok b ∧ effect a b) :
    GoesBy (check >>= f) check effect := by
  cases hcheck : check with
  | error reason => rfl
  | ok a => exact h a hcheck

/-- A step that goes by a check goes by it with one more part that does not fail. -/
theorem GoesBy.andThen {f : β → Except ε γ} {effect' : α → γ → Prop}
    (h : GoesBy step check effect)
    (hf : ∀ a b, effect a b → ∃ c, f b = .ok c ∧ effect' a c) :
    GoesBy (step >>= f) check effect' := by
  cases check with
  | error reason =>
    have hstep : step = .error reason := h
    rw [hstep]
    rfl
  | ok a =>
    obtain ⟨b, hstep, heffect⟩ := h
    rw [hstep]
    exact hf a b heffect

/-- A step goes by a check when both start alike and the rest of it goes by the rest of the
check. -/
theorem GoesBy.of_first {first : Except ε γ} {f : γ → Except ε β} {g : γ → Except ε α}
    (h : ∀ c, first = .ok c → GoesBy (f c) (g c) effect) :
    GoesBy (first >>= f) (first >>= g) effect := by
  cases hfirst : first with
  | error reason => rfl
  | ok c => exact h c hfirst

/-- What follows of the result of a step is an effect of it. -/
theorem GoesBy.imp {effect' : α → β → Prop} (h : GoesBy step check effect)
    (himp : ∀ a b, step = .ok b → effect a b → effect' a b) : GoesBy step check effect' := by
  cases check with
  | error reason => exact h
  | ok a =>
    obtain ⟨b, hstep, heffect⟩ := h
    exact ⟨b, hstep, himp a b hstep heffect⟩

end GoesBy

/-! ## Runs of items -/

section Spliced

variable {α : Type} {position target : Nat} {items run rest whole : List α} {item : α}

/-- A list is another one with a run of items put in at a position. -/
def Spliced (position : Nat) (run rest whole : List α) : Prop :=
  ∃ before after, before.length = position ∧ rest = before ++ after ∧
    whole = before ++ run ++ after

/-- A run of items has been taken out at a position and put in again at another one. -/
def Moved (position target : Nat) (run old new : List α) : Prop :=
  ∃ rest, Spliced position run rest old ∧ Spliced target run rest new

/-- An item inserted after so many ones. -/
theorem insertIdx_length_append (before after : List α) (item : α) :
    (before ++ after).insertIdx before.length item = before ++ item :: after := by
  induction before with
  | nil => rfl
  | cons first rest ih => simpa using ih

/-- An inserted item is put in at its position. -/
theorem spliced_insertIdx (item : α) (h : position ≤ items.length) :
    Spliced position [item] items (items.insertIdx position item) := by
  obtain ⟨before, after, rfl, rfl⟩ : ∃ before after, items = before ++ after ∧
      before.length = position := ⟨items.take position, items.drop position, by simp, by simpa⟩
  exact ⟨before, after, rfl, rfl, by simp [insertIdx_length_append]⟩

/-- An erased item is taken out at its position. -/
theorem spliced_eraseIdx (h : items[position]? = some item) :
    Spliced position [item] (items.eraseIdx position) items := by
  obtain ⟨before, after, rfl, rfl⟩ := Blocks.exists_parts h
  exact ⟨before, after, rfl, by simp [List.eraseIdx_append_of_length_le], by simp⟩

/-- An item that is erased and inserted again is moved. -/
theorem moved_eraseIdx_insertIdx (h : items[position]? = some item)
    (htarget : target < items.length) :
    Moved position target [item] items ((items.eraseIdx position).insertIdx target item) := by
  have hlt : position < items.length := (List.getElem?_eq_some_iff.mp h).1
  have hle : target ≤ (items.eraseIdx position).length := by
    rw [List.length_eraseIdx_of_lt hlt]
    omega
  exact ⟨_, spliced_eraseIdx h, spliced_insertIdx item hle⟩

/-- A run put in between two lists is put in behind the first. -/
theorem Spliced.within (h : Spliced position run rest whole) (front back : List α) :
    Spliced (front.length + position) run (front ++ rest ++ back) (front ++ whole ++ back) := by
  obtain ⟨before, after, rfl, rfl, rfl⟩ := h
  exact ⟨front ++ before, after ++ back, by simp, by simp, by simp⟩

end Spliced

/-! ## Edits of a sequence -/

section Sequences

variable {α : Type} {items : List α}

/-- Looking an item up goes by the check that there is one. -/
theorem itemAt_goesBy (position : Nat) (items : List α) :
    GoesBy (itemAt position items) (checkExisting position items.length) fun _ item =>
      items[position]? = some item := by
  unfold checkExisting itemAt
  by_cases hlt : position < items.length
  · rw [if_pos hlt, List.getElem?_eq_getElem hlt]
    exact ⟨_, rfl, rfl⟩
  · rw [if_neg hlt, List.getElem?_eq_none (by omega)]
    rfl

/-- What the edits of a sequence do: each of them goes by its check, and the items that an edit does
not name stay as they are, in their order. -/
structure OrderlySequence (items : List α) : Prop where
  /-- An inserted item is put in at its position. -/
  insert : ∀ position item, GoesBy (insertItem position item items)
    (checkInsertion position items.length) fun _ items' => Spliced position [item] items items'
  /-- The item given back has been taken out at its position. -/
  remove : ∀ position, GoesBy (removeItem position items) (checkExisting position items.length)
    fun _ result => Spliced position [result.1] result.2 items
  /-- An item is moved by the distance. -/
  move : ∀ position delta, GoesBy (moveItem position delta items)
    (moveTarget position delta items.length) fun target result =>
      result.1 = target ∧ (target : Int) = position + delta ∧
        ∃ item, Moved position target [item] items result.2

/-- The edits of a sequence do what they should. -/
theorem orderlySequence (items : List α) : OrderlySequence items where
  insert position item := by
    refine GoesBy.of_check fun _ hcheck => ⟨_, rfl, spliced_insertIdx item ?_⟩
    unfold checkInsertion at hcheck
    split at hcheck
    · assumption
    · cases hcheck
  remove position :=
    (itemAt_goesBy position items).andThen fun _ item hitem => ⟨_, rfl, spliced_eraseIdx hitem⟩
  move position delta := by
    refine GoesBy.of_check fun target htarget => ?_
    obtain ⟨hlt, -, hdelta, hlt'⟩ := moveTarget_eq_ok.mp htarget
    have hitem : items[position]? = some items[position] := List.getElem?_eq_getElem hlt
    exact ⟨_, bind_eq_ok.mpr ⟨_, itemAt_eq_ok.mpr hitem, rfl⟩, rfl, hdelta, _,
      moved_eraseIdx_insertIdx hitem hlt'⟩

end Sequences

/-! ## Edits of a list of blocks -/

namespace Blocks

variable {α μ : Type} {block position target : Nat} {change : List μ → List μ → Prop}
  {run rest whole blocks blocks' : List (Block α μ)} {members : List μ} {header : Header α}

/-- The number of members that come before a block. -/
def offset (block : Nat) (blocks : List (Block α μ)) : Nat :=
  (allMembers (blocks.take block)).length

/-- The members of one block have changed; its header and the other blocks are as they were. -/
def Altered (block : Nat) (change : List μ → List μ → Prop) (blocks blocks' : List (Block α μ)) :
    Prop :=
  ∃ before header members members' after, before.length = block ∧
    blocks = before ++ ⟨header, members⟩ :: after ∧
    blocks' = before ++ ⟨header, members'⟩ :: after ∧ change members members'

/-- One list of blocks has a block that the other one has in two parts: the first has as many
members as the position says and the header of the whole, and the second has a given header. -/
def Parted (block position : Nat) (header : Header α) (whole parted : List (Block α μ)) : Prop :=
  ∃ before head first second after, before.length = block ∧ first.length = position ∧
    whole = before ++ ⟨head, first ++ second⟩ :: after ∧
    parted = before ++ ⟨head, first⟩ :: ⟨header, second⟩ :: after

/-- Setting the members of a block changes those. -/
theorem altered_setMembers {content : Block α μ} (h : blocks[block]? = some content)
    (hchange : change content.members members) :
    Altered block change blocks (setMembers block members blocks) := by
  obtain ⟨before, after, rfl, rfl⟩ := exists_parts h
  exact ⟨before, content.header, content.members, members, after, rfl, rfl, by simp [setMembers],
    hchange⟩

/-- A run of members put into a block is put in among all members behind those of the blocks
before. -/
theorem Altered.spliced (h : Altered block (Spliced position members) blocks blocks') :
    Spliced (offset block blocks + position) members (allMembers blocks) (allMembers blocks') := by
  obtain ⟨before, header, own, own', after, rfl, rfl, rfl, hspliced⟩ := h
  simpa [offset, allMembers] using
    hspliced.within (allMembers before) (allMembers after)

/-- A run of members taken out of a block is taken out among all members. -/
theorem Altered.spliced_back
    (h : Altered block (fun old new => Spliced position members new old) blocks blocks') :
    Spliced (offset block blocks + position) members (allMembers blocks') (allMembers blocks) := by
  obtain ⟨before, header, own, own', after, rfl, rfl, rfl, hspliced⟩ := h
  simpa [offset, allMembers] using
    hspliced.within (allMembers before) (allMembers after)

/-- A run of members moved inside a block is moved among all members. -/
theorem Altered.moved (h : Altered block (Moved position target members) blocks blocks') :
    Moved (offset block blocks + position) (offset block blocks + target) members
      (allMembers blocks) (allMembers blocks') := by
  obtain ⟨before, header, own, own', after, rfl, rfl, rfl, others, hout, hin⟩ := h
  have hout' := hout.within (allMembers before) (allMembers after)
  have hin' := hin.within (allMembers before) (allMembers after)
  refine ⟨allMembers before ++ others ++ allMembers after, ?_, ?_⟩
  · simpa [offset, allMembers] using hout'
  · simpa [offset, allMembers] using hin'

/-- As many members come before a run of blocks that is put in as did before its position. -/
theorem offset_of_spliced (h : Spliced block run rest whole) :
    offset block whole = offset block rest := by
  obtain ⟨before, after, rfl, rfl, rfl⟩ := h
  simp [offset]

/-- With a run of blocks its members are put in, behind those of the blocks before. -/
theorem spliced_allMembers (h : Spliced block run rest whole) :
    Spliced (offset block rest) (allMembers run) (allMembers rest) (allMembers whole) := by
  obtain ⟨before, after, rfl, rfl, rfl⟩ := h
  exact ⟨allMembers before, allMembers after, by simp [offset], by simp [allMembers],
    by simp [allMembers]⟩

/-- With a run of blocks its members are moved. -/
theorem moved_allMembers (h : Moved block target run blocks blocks') :
    Moved (offset block blocks) (offset target blocks') (allMembers run) (allMembers blocks)
      (allMembers blocks') := by
  obtain ⟨rest, hout, hin⟩ := h
  rw [offset_of_spliced hout, offset_of_spliced hin]
  exact ⟨allMembers rest, spliced_allMembers hout, spliced_allMembers hin⟩

/-- The members of a single block. -/
theorem allMembers_singleton (content : Block α μ) : allMembers [content] = content.members := by
  simp [allMembers]

/-- Two joined blocks are split again if both have members; else the split is refused. -/
theorem split_joined {before after : List (Block α μ)} (content next : Block α μ) :
    split before.length content.members.length next.header
        (before ++ ⟨content.header, content.members ++ next.members⟩ :: after) =
      if content.members ≠ [] ∧ next.members ≠ [] then .ok (before ++ content :: next :: after)
      else .error (.badSplit before.length content.members.length
        (content.members.length + next.members.length)) := by
  by_cases hmembers : content.members ≠ [] ∧ next.members ≠ []
  · rw [if_pos hmembers]
    have hfirst : 0 < content.members.length := List.length_pos_iff.mpr hmembers.1
    have hsecond : 0 < next.members.length := List.length_pos_iff.mpr hmembers.2
    exact split_eq_ok.mpr ⟨before, _, after, rfl, rfl, hfirst, by simpa using hsecond, by simp⟩
  · rw [if_neg hmembers]
    have hbounds : ¬ (0 < content.members.length ∧
        content.members.length < content.members.length + next.members.length) := fun hbounds =>
      hmembers ⟨List.length_pos_iff.mp hbounds.1, List.length_pos_iff.mp (by omega)⟩
    unfold split checkSplit
    rw [blockAt_eq_ok.mpr (getElem?_parts before after _), ok_bind, List.length_append,
      if_neg hbounds]
    rfl

/-- What the edits of a list of blocks do: each of them goes by its check, the blocks and members
that an edit does not name stay as they are, in their order, and splitting and joining undo each
other where both parts have members. -/
structure OrderlyBlocks (blocks : List (Block α μ)) : Prop where
  /-- An inserted member is put into its block at its position, and so among all members. -/
  insertMember : ∀ block position member, GoesBy (insertMember block position member blocks)
    (checkInsertMember block position blocks) fun _ blocks' =>
      Altered block (Spliced position [member]) blocks blocks' ∧
        Spliced (offset block blocks + position) [member] (allMembers blocks) (allMembers blocks')
  /-- The member given back has been taken out of its block, and so from among all members. -/
  removeMember : ∀ block position, GoesBy (removeMember block position blocks)
    (checkMember block position blocks) fun _ result =>
      Altered block (fun old new => Spliced position [result.1] new old) blocks result.2 ∧
        Spliced (offset block blocks + position) [result.1] (allMembers result.2)
          (allMembers blocks)
  /-- A member is moved by the distance inside its block, and so among all members. -/
  moveMember : ∀ block position delta, GoesBy (moveMember block position delta blocks)
    (checkMoveMember block position delta blocks) fun target result =>
      result.1 = target ∧ (target : Int) = position + delta ∧
        ∃ member, Altered block (Moved position target [member]) blocks result.2 ∧
          Moved (offset block blocks + position) (offset block blocks + target) [member]
            (allMembers blocks) (allMembers result.2)
  /-- An inserted block is put in at its position, and its members among all members. -/
  insertBlock : ∀ block content, GoesBy (insertBlock block content blocks)
    (checkInsertBlock block blocks) fun _ blocks' =>
      Spliced block [content] blocks blocks' ∧
        Spliced (offset block blocks) content.members (allMembers blocks) (allMembers blocks')
  /-- The block given back has been taken out, and its members from among all members. -/
  removeBlock : ∀ block, GoesBy (removeBlock block blocks) (checkExisting block blocks.length)
    fun _ result =>
      Spliced block [result.1] result.2 blocks ∧
        Spliced (offset block blocks) result.1.members (allMembers result.2) (allMembers blocks)
  /-- A block is moved by the distance, and its members with it. -/
  moveBlock : ∀ block delta, GoesBy (moveBlock block delta blocks)
    (checkMoveBlock block delta blocks) fun target result =>
      result.1 = target ∧ (target : Int) = block + delta ∧
        ∃ content, Moved block target [content] blocks result.2 ∧
          Moved (offset block blocks) (offset target result.2) content.members
            (allMembers blocks) (allMembers result.2)
  /-- A change of replication changes that of its block and no members. -/
  setReplication : ∀ block replication, GoesBy (setReplication block replication blocks)
    (checkExisting block blocks.length) fun _ blocks' =>
      (∃ before content after, before.length = block ∧ blocks = before ++ content :: after ∧
        blocks' = before ++ { content with header := { content.header with replication } } ::
          after) ∧
        allMembers blocks' = allMembers blocks
  /-- Splitting a block parts it at the position, with all members where they were. -/
  split : ∀ block position header, GoesBy (split block position header blocks)
    (checkSplit block position blocks) fun _ blocks' =>
      Parted block position header blocks blocks' ∧ allMembers blocks' = allMembers blocks
  /-- Joining two blocks undoes a parting, at the position that is given back, with all members
  where they were. -/
  merge : ∀ block, GoesBy (merge block blocks) (checkMerge block blocks) fun position result =>
    result.1 = position ∧ (∃ header, Parted block position header result.2 blocks) ∧
      allMembers result.2 = allMembers blocks
  /-- Joining the parts of a split block gives back what there was. -/
  merge_split : ∀ block position header blocks',
    Blocks.split block position header blocks = .ok blocks' →
      Blocks.merge block blocks' = .ok (position, blocks)
  /-- Splitting two joined blocks gives back what there was if both have members, and else is
  refused. -/
  split_merge : ∀ block position blocks' content next,
    Blocks.merge block blocks = .ok (position, blocks') → blocks[block]? = some content →
      blocks[block + 1]? = some next →
        Blocks.split block position next.header blocks' =
          if content.members ≠ [] ∧ next.members ≠ [] then .ok blocks
          else .error (.badSplit block position (content.members.length + next.members.length))

/-- The edits of a list of blocks do what they should. -/
theorem orderlyBlocks (blocks : List (Block α μ)) : OrderlyBlocks blocks where
  -- The edits of members are those of a sequence, made in one block.
  insertMember block position member := by
    refine GoesBy.of_first fun content hblock => ?_
    refine ((orderlySequence content.members).insert position member).andThen
      fun _ members' hspliced => ⟨_, rfl, ?_⟩
    have haltered := altered_setMembers (blockAt_eq_ok.mp hblock) hspliced
    exact ⟨haltered, haltered.spliced⟩
  removeMember block position := by
    refine GoesBy.of_first fun content hblock => ?_
    refine ((orderlySequence content.members).remove position).andThen
      fun _ result hspliced => ⟨_, rfl, ?_⟩
    have haltered : Altered block (fun old new => Spliced position [result.1] new old) blocks
        (setMembers block result.2 blocks) :=
      altered_setMembers (blockAt_eq_ok.mp hblock) hspliced
    exact ⟨haltered, haltered.spliced_back⟩
  moveMember block position delta := by
    refine GoesBy.of_first fun content hblock => ?_
    refine ((orderlySequence content.members).move position delta).andThen ?_
    rintro target result ⟨htarget, hdelta, member, hmoved⟩
    have haltered := altered_setMembers (blockAt_eq_ok.mp hblock) hmoved
    exact ⟨_, rfl, htarget, hdelta, member, haltered, haltered.moved⟩
  insertBlock block content := by
    refine ((orderlySequence blocks).insert block content).imp fun _ blocks' _ hspliced => ?_
    exact ⟨hspliced, allMembers_singleton content ▸ spliced_allMembers hspliced⟩
  removeBlock block := by
    refine ((orderlySequence blocks).remove block).imp fun _ result _ hspliced => ⟨hspliced, ?_⟩
    rw [offset_of_spliced hspliced, ← allMembers_singleton result.1]
    exact spliced_allMembers hspliced
  moveBlock block delta := by
    refine ((orderlySequence blocks).move block delta).imp ?_
    rintro target result - ⟨htarget, hdelta, content, hmoved⟩
    exact ⟨htarget, hdelta, content, hmoved, allMembers_singleton content ▸ moved_allMembers hmoved⟩
  setReplication block replication := by
    refine (itemAt_goesBy block blocks).andThen fun _ content hblock => ?_
    obtain ⟨before, after, rfl, rfl⟩ := exists_parts hblock
    exact ⟨_, rfl, ⟨before, content, after, rfl, rfl, by simp⟩, by simp [allMembers]⟩
  -- A split and a merge change no member, only the block that it is counted in.
  split block position header := by
    refine GoesBy.of_check fun _ hcheck => ?_
    obtain ⟨blocks', hsplit⟩ : ∃ blocks', Blocks.split block position header blocks = .ok blocks' :=
      split_of_checkSplit hcheck
    obtain ⟨_, -, hrest⟩ := bind_eq_ok.mp hsplit
    refine ⟨_, hrest, ?_, allMembers_split hsplit⟩
    obtain ⟨before, content, after, rfl, rfl, -, hlt, rfl⟩ := split_eq_ok.mp hsplit
    refine ⟨before, content.header, _, _, after, rfl, List.length_take_of_le hlt.le, ?_, rfl⟩
    rw [List.take_append_drop]
  merge block := by
    refine GoesBy.of_check fun position hcheck => ?_
    obtain ⟨blocks', hmerge⟩ := merge_of_checkMerge hcheck
    obtain ⟨_, hcheck', hrest⟩ := bind_eq_ok.mp hmerge
    cases hcheck.symm.trans hcheck'
    refine ⟨_, hrest, rfl, ?_, allMembers_merge hmerge⟩
    obtain ⟨before, content, next, after, rfl, rfl, rfl, rfl⟩ := merge_eq_ok.mp hmerge
    exact ⟨next.header, before, content.header, content.members, next.members, after, rfl, rfl, rfl,
      rfl⟩
  merge_split block position header blocks' hsplit := by
    obtain ⟨before, content, after, rfl, rfl, -, hlt, rfl⟩ := split_eq_ok.mp hsplit
    refine merge_eq_ok.mpr ⟨before, _, _, after, rfl, rfl, (List.length_take_of_le hlt.le).symm, ?_⟩
    rw [List.take_append_drop]
  split_merge block position blocks' content next hmerge hcontent hnext := by
    obtain ⟨before, content', next', after, rfl, rfl, rfl, rfl⟩ := merge_eq_ok.mp hmerge
    cases (getElem?_parts before (next' :: after) content').symm.trans hcontent
    cases (getElem?_parts_succ before after content next').symm.trans hnext
    exact split_joined content next

end Blocks

/-- The edits of sequences and of lists of blocks go by their checks and lose, repeat and misplace
nothing. -/
theorem edits_orderly {α μ : Type} :
    (∀ items : List μ, OrderlySequence items) ∧
      ∀ blocks : List (Block α μ), Blocks.OrderlyBlocks blocks :=
  ⟨orderlySequence, Blocks.orderlyBlocks⟩

/-- Splitting does not always undo joining: a block without members that was joined with the next
one is not split off again. -/
theorem not_split_merge_all : ¬ ∀ (blocks blocks' : List (Block Unit Nat)) (block position : Nat)
    (next : Block Unit Nat), Blocks.merge block blocks = .ok (position, blocks') →
      blocks[block + 1]? = some next →
        Blocks.split block position next.header blocks' = .ok blocks := by
  intro h
  have hsplit := h [⟨⟨.normal, (), ()⟩, []⟩, ⟨⟨.normal, (), ()⟩, [7]⟩]
    [⟨⟨.normal, (), ()⟩, [7]⟩] 0 0 ⟨⟨.normal, (), ()⟩, [7]⟩ rfl rfl
  cases hsplit

end TreeEditor
