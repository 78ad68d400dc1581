import TreeEditor.Proofs.Reflection
import TreeEditor.Proofs.Splicing

/-!
# Views of a branch

A slot of a branch can be checked, looked up, listed and given another handle, each by a function of
its own. They speak of the same slots (`Branch.coherent`): the listing is a table from slots to
handles, in which the look-up finds what the branch holds, and replacing a child sets one entry of
the table. The slots of the table rise, block by block and position by position, so none is listed
twice.
-/

namespace TreeEditor

/-- Where a slot comes in the order of the document: first by its block, then by its position. -/
def Slot.rank (slot : Slot) : ℕ ×ₗ ℕ := toLex (slot.block?.getD 0, slot.position?.getD 0)

section Order

variable {α μ : Type}

/-- Items are numbered upwards. -/
theorem pairwise_zipIdx (items : List μ) : items.zipIdx.Pairwise fun a b => a.2 < b.2 := by
  rw [← List.pairwise_map, List.zipIdx_map_snd]
  exact List.pairwise_lt_range'

/-- The slots of a list rise with its positions. -/
theorem pairwise_rank_listSlots (items : List μ) :
    (listSlots items).Pairwise fun a b => a.1.rank < b.1.rank := by
  rw [listSlots, List.pairwise_map]
  refine (pairwise_zipIdx items).imp fun {a b} hlt => ?_
  exact Prod.Lex.toLex_lt_toLex.mpr (.inr ⟨rfl, hlt⟩)

/-- The slots of a list of blocks rise with the blocks and within each block with its positions. -/
theorem pairwise_rank_blockSlots (blocks : List (Block α μ)) :
    (blockSlots blocks).Pairwise fun a b => a.1.rank < b.1.rank := by
  refine List.pairwise_flatMap.mpr ⟨fun entry _ => ?_, (pairwise_zipIdx blocks).imp ?_⟩
  · rw [List.pairwise_map]
    refine (pairwise_zipIdx entry.1.members).imp fun {a b} hlt => ?_
    exact Prod.Lex.toLex_lt_toLex.mpr (.inr ⟨rfl, hlt⟩)
  · intro entry entry' hlt a ha b hb
    obtain ⟨member, -, rfl⟩ := List.mem_map.mp ha
    obtain ⟨member', -, rfl⟩ := List.mem_map.mp hb
    exact Prod.Lex.toLex_lt_toLex.mpr (.inl hlt)

/-- A list has as many slots as items. -/
theorem length_listSlots (items : List μ) : (listSlots items).length = items.length := by
  rw [← List.length_map (f := Prod.snd), map_snd_listSlots]

/-- A list of blocks has as many slots as members. -/
theorem length_blockSlots (blocks : List (Block α μ)) :
    (blockSlots blocks).length = Blocks.memberCount blocks := by
  rw [← List.length_map (f := Prod.snd), map_snd_blockSlots]
  induction blocks with
  | nil => rfl
  | cons block rest ih =>
    rw [List.flatMap_cons, List.length_append, ih]
    rfl

end Order

namespace Branch

variable {branch branch' : Branch} {property : String} {slot : Slot} {old new : Handle}

/-- The check, the look-up, the listing and the replacement speak of the same slots. -/
structure Coherent (branch : Branch) (property : String) : Prop where
  /-- A slot passes the check exactly when the look-up finds a handle there. -/
  check_iff : ∀ slot, branch.checkSlot property slot = .ok () ↔
    ∃ child, branch.childAt? slot = some child
  /-- The look-up finds a handle exactly in the slots that are listed. -/
  listed_iff : ∀ slot, (∃ child, branch.childAt? slot = some child) ↔
    slot ∈ branch.slots.map Prod.fst
  /-- A slot is listed once, with the handle that the look-up finds, or else not at all. -/
  once : ∀ slot, branch.slots.filter (fun entry => entry.1 = slot) =
    (branch.childAt? slot).toList.map (slot, ·)
  /-- The slots are listed block by block and position by position. -/
  rising : (branch.slots.map fun entry => entry.1.rank).Pairwise (· < ·)
  /-- The number of handles is the number of slots listed. -/
  count_eq : branch.count = branch.slots.length
  /-- Replacing a child goes by the check: the handle that was there is given back, the entry of the
  slot changes, and no other one. -/
  replaced : ∀ slot new, GoesBy (branch.replaceChild property slot new)
    (branch.checkSlot property slot) fun _ result =>
      branch.childAt? slot = some result.1 ∧ result.2.slots =
        branch.slots.map fun entry => if entry.1 = slot then (slot, new) else entry

/-- The slots of a branch rise. -/
theorem pairwise_rank_slots (branch : Branch) :
    branch.slots.Pairwise fun a b => a.1.rank < b.1.rank := by
  cases branch with
  | placeholder child => exact List.pairwise_singleton _ _
  | optional child => exact List.pairwise_singleton _ _
  | list children => exact pairwise_rank_listSlots children
  | blockList blocks => exact pairwise_rank_blockSlots blocks

/-- A branch holds as many handles as it has slots. -/
theorem count_eq_length_slots (branch : Branch) : branch.count = branch.slots.length := by
  cases branch with
  | placeholder child => rfl
  | optional child => rfl
  | list children => exact (length_listSlots children).symm
  | blockList blocks => exact (length_blockSlots blocks).symm

/-- Entries whose slots rise are listed in one way only. -/
theorem eq_of_rising {entries entries' : List (Slot × Handle)}
    (h : entries.Pairwise fun a b => a.1.rank < b.1.rank)
    (h' : entries'.Pairwise fun a b => a.1.rank < b.1.rank)
    (hmem : ∀ slot child, (slot, child) ∈ entries ↔ (slot, child) ∈ entries') :
    entries = entries' := by
  have : Std.Irrefl fun a b : Slot × Handle => a.1.rank < b.1.rank := ⟨fun a => lt_irrefl a.1.rank⟩
  have : Std.Antisymm fun a b : Slot × Handle => a.1.rank < b.1.rank :=
    ⟨fun a b hab hba => absurd hab hba.asymm⟩
  exact h.eq_of_mem_iff h' fun entry => hmem entry.1 entry.2

/-- The entry of a slot is the handle that it holds. -/
theorem filter_slots (branch : Branch) (slot : Slot) :
    branch.slots.filter (fun entry => entry.1 = slot) =
      (branch.childAt? slot).toList.map (slot, ·) := by
  refine eq_of_rising (branch.pairwise_rank_slots.filter _) ?_ fun slot' child => ?_
  · cases branch.childAt? slot with
    | none => exact .nil
    | some child => exact List.pairwise_singleton _ _
  · simp only [List.mem_filter, mem_slots, decide_eq_true_eq, List.mem_map, Option.mem_toList,
      Prod.mk.injEq, exists_eq_right_right]
    constructor
    · rintro ⟨hchild, rfl⟩
      exact ⟨hchild, rfl⟩
    · rintro ⟨hchild, rfl⟩
      exact ⟨hchild, rfl⟩

/-- Replacing a child goes by the check of its slot and gives back the handle that was there. -/
theorem replaceChild_goesBy (branch : Branch) (property : String) (slot : Slot) (new : Handle) :
    GoesBy (branch.replaceChild property slot new) (branch.checkSlot property slot) fun _ result =>
      branch.childAt? slot = some result.1 := by
  cases branch with
  | placeholder child =>
    cases slot with
    | placeholder => exact ⟨_, rfl, rfl⟩
    | _ => rfl
  | optional child =>
    cases slot with
    | optional => exact ⟨_, rfl, rfl⟩
    | _ => rfl
  | list children =>
    cases slot with
    | list position =>
      exact (itemAt_goesBy position children).andThen fun _ child hchild => ⟨_, rfl, hchild⟩
    | _ => rfl
  | blockList blocks =>
    cases slot with
    | member block position =>
      refine GoesBy.of_first fun content hblock => ?_
      refine (itemAt_goesBy position content.members).andThen fun _ child hchild => ⟨_, rfl, ?_⟩
      exact Option.bind_eq_some_iff.mpr ⟨content, Blocks.blockAt_eq_ok.mp hblock, hchild⟩
    | _ => rfl

/-- The listing of a branch with one child replaced differs in the entry of its slot. -/
theorem slots_replaceChild (hold : branch.childAt? slot = some old)
    (h : branch.replaceChild property slot new = .ok (old, branch')) :
    branch'.slots = branch.slots.map fun entry =>
      if entry.1 = slot then (slot, new) else entry := by
  obtain ⟨_, hreplace, hchildAt⟩ := exists_replaceChild property new hold
  cases hreplace.symm.trans h
  have hslot : ∀ entry : Slot × Handle,
      (if entry.1 = slot then (slot, new) else entry).1 = entry.1 := by
    intro entry
    split
    · exact Eq.symm ‹_›
    · rfl
  -- Both lists rise by the rank of their slots, so they are equal if they have the same entries.
  refine eq_of_rising branch'.pairwise_rank_slots ?_ fun other child => ?_
  · rw [List.pairwise_map]
    simpa only [hslot] using branch.pairwise_rank_slots
  · rw [mem_slots, hchildAt, List.mem_map]
    constructor
    · intro hchild
      split at hchild
      · rename_i heq
        cases hchild
        exact ⟨(slot, old), mem_slots.mpr hold, by rw [if_pos rfl, heq]⟩
      · rename_i hne
        exact ⟨(other, child), mem_slots.mpr hchild, if_neg hne⟩
    · rintro ⟨⟨slot', child'⟩, hmem, hentry⟩
      split at hentry
      · cases hentry
        exact if_pos rfl
      · rename_i hne
        cases hentry
        rw [if_neg hne]
        exact mem_slots.mp hmem

/-- The views of a branch agree. -/
theorem coherent (branch : Branch) (property : String) : branch.Coherent property where
  check_iff slot := checkSlot_eq_ok
  listed_iff slot := by
    simp only [← mem_slots, List.mem_map, Prod.exists, exists_and_right, exists_eq_right]
  once := branch.filter_slots
  rising := List.pairwise_map.mpr branch.pairwise_rank_slots
  count_eq := branch.count_eq_length_slots
  replaced slot new :=
    (branch.replaceChild_goesBy property slot new).imp fun _ result hreplace hold =>
      ⟨hold, slots_replaceChild hold hreplace⟩

end Branch

end TreeEditor
