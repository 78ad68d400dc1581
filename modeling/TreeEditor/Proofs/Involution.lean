import TreeEditor.Edit.Group
import TreeEditor.Proofs.Inverse

/-!
# Taking back twice

Taking an edit back swaps what it records, so taking back the inverse gives the edit again. Moves
are the exception: the inverse of a move starts where the move arrives, and a move to before the
first position is recorded as arriving at the first one, from where no way leads back. So the
inverse of the inverse is the edit exactly when the edit is not such a move
(`Edit.invert_invert_iff`), and it is not even the same up to the order of properties otherwise.

For a group it follows that what undoes its undoing is what redoes it, as long as none of its edits
moves too far back.
-/

namespace TreeEditor

/-- Going a distance from a position and the same distance back leads to the position again, unless
the way passes the first position. -/
theorem shifted_shifted {position : Nat} {delta : Int} (hposition : position < 2 ^ 63)
    (harrival : position + delta < 2 ^ 63) :
    Edit.shifted (Edit.shifted position delta) (-delta) = position ↔ 0 ≤ position + delta := by
  -- Each way ends at the first position at the earliest.
  have hout : Edit.shifted position delta = (max 0 (position + delta)).toNat := by
    rw [Edit.shifted, signed_of_lt hposition]
  have hback : Edit.shifted (Edit.shifted position delta) (-delta) =
      (max 0 ((max 0 (position + delta)).toNat + -delta)).toNat := by
    rw [hout, Edit.shifted, signed_of_lt (by omega)]
  rw [hback]
  omega

namespace Edit

/-- The position that an edit moves something away from, and how far. -/
def travel? : Edit → Option (Nat × Int)
  | move _ slot delta => slot.position?.map (·, delta)
  | moveBlock _ block delta => some (block, delta)
  | _ => none

/-- The positions at both ends of a move are numbers that a signed 64-bit number can be. -/
def NoOverflow (edit : Edit) : Prop :=
  ∀ travel ∈ edit.travel?, travel.1 < 2 ^ 63 ∧ travel.1 + travel.2 < 2 ^ 63

instance : DecidablePred NoOverflow := fun edit =>
  inferInstanceAs (Decidable (∀ travel ∈ edit.travel?,
    travel.1 < 2 ^ 63 ∧ travel.1 + travel.2 < 2 ^ 63))

/-- A move leads to before the first position, so it is taken to arrive at the first one. -/
def Clamps (edit : Edit) : Prop := ∃ travel ∈ edit.travel?, travel.1 + travel.2 < 0

instance : DecidablePred Clamps := fun edit =>
  inferInstanceAs (Decidable (∃ travel ∈ edit.travel?, travel.1 + travel.2 < 0))

/-- Moving a slot a distance and the same distance back gives the slot again exactly when this holds
of its position. -/
theorem shiftedSlot_shiftedSlot {slot : Slot} {delta : Int} :
    shiftedSlot (shiftedSlot slot delta) (-delta) = slot ↔
      ∀ position ∈ slot.position?, shifted (shifted position delta) (-delta) = position := by
  cases slot <;> simp [shiftedSlot, Slot.position?, Slot.moveTo]

/-- A slot can be moved there and back exactly when the way does not pass the first position. -/
theorem NoOverflow.slot {branch : BranchPath} {slot : Slot} {delta : Int}
    (h : (move branch slot delta).NoOverflow) :
    shiftedSlot (shiftedSlot slot delta) (-delta) = slot ↔ ¬ (move branch slot delta).Clamps := by
  rw [shiftedSlot_shiftedSlot]
  cases hslot : slot.position? with
  | none => simp [Clamps, travel?, hslot]
  | some position =>
    obtain ⟨hposition, harrival⟩ := h (position, delta) (by simp [travel?, hslot])
    have hback := shifted_shifted hposition harrival
    simp [Clamps, travel?, hslot, hback]

/-- A block can be moved there and back exactly when the way does not pass the first block. -/
theorem NoOverflow.block {branch : BranchPath} {block : Nat} {delta : Int}
    (h : (moveBlock branch block delta).NoOverflow) :
    shifted (shifted block delta) (-delta) = block ↔ ¬ (moveBlock branch block delta).Clamps := by
  obtain ⟨hblock, harrival⟩ := h (block, delta) rfl
  have hback := shifted_shifted hblock harrival
  simp [Clamps, travel?, hback]

variable {edit : Edit}

/-- The inverse of the inverse is the edit itself, except for a move to before the first
position. -/
theorem invert_invert_iff (h : edit.NoOverflow) : edit.invert.invert = edit ↔ ¬ edit.Clamps := by
  cases edit with
  | move branch slot delta =>
    rw [← h.slot]
    simp [invert]
  | moveBlock branch block delta =>
    rw [← h.block]
    simp [invert]
  | _ => simp [invert, Clamps, travel?]

/-- A well-formed edit is the same as itself. -/
theorem same_refl (h : edit.WellFormed) : edit.same edit = true := by
  have hnode : ∀ node ∈ edit.nodes, node.Same node := fun node hnode =>
    Node.same_refl (h node hnode)
  cases edit with
  | insert _ _ node | remove _ _ node =>
    have hsame : node.same node = true := hnode node (by simp [nodes])
    simp [same, hsame]
  | replace _ _ before after =>
    have hbefore : before.same before = true := hnode before (by simp [nodes])
    have hafter : after.same after = true := hnode after (by simp [nodes])
    simp [same, hbefore, hafter]
  | assign _ before after =>
    have hafter : after.same after = true := hnode after (by simp [nodes])
    have hbefore := sameItem_refl fun node hmem => hnode node (List.mem_cons_of_mem _ hmem)
    simp [same, hbefore, hafter]
  | unassign _ item restore =>
    have hsame : item.same item = true := hnode item (by simp [nodes])
    have hrestore := sameItem_refl fun node hmem => hnode node (List.mem_cons_of_mem _ hmem)
    simp [same, hsame, hrestore]
  | insertBlock _ _ content | removeBlock _ _ content =>
    have hcontent := Block.same_refl hnode
    simp [same, hcontent]
  | splitBlock _ _ _ header | mergeBlocks _ _ _ header =>
    have hsame := Header.same_refl (hnode header.pattern (by simp [nodes]))
      (hnode header.source (by simp [nodes]))
    simp [same, hsame]
  | _ => simp [same]

/-- The inverse of the inverse is the same as the edit, except for a move to before the first
position. -/
theorem invert_invert_same_iff (h : edit.NoOverflow) (hedit : edit.WellFormed) :
    edit.invert.invert.same edit = true ↔ ¬ edit.Clamps := by
  constructor
  · -- Moves record no nodes, so two of them are the same only when they are equal.
    intro hsame
    cases edit with
    | move branch slot delta =>
      rw [← h.slot]
      simpa [invert, same] using hsame
    | moveBlock branch block delta =>
      rw [← h.block]
      simpa [invert, same] using hsame
    | _ => simp [Clamps, travel?]
  · intro hclamps
    rw [(invert_invert_iff h).mpr hclamps]
    exact same_refl hedit

end Edit

namespace Group

/-- What undoes the undoing of a group is the inverses of the inverses of its edits, in order. -/
theorem undoEdits_eq {group back : Group} (h : back.edits = group.undoEdits) :
    back.undoEdits = group.edits.map fun edit => edit.invert.invert := by
  rw [undoEdits, h, undoEdits, ← List.map_reverse, List.reverse_reverse, List.map_map]
  rfl

/-- What undoes the undoing of a group is what redoes it exactly when none of its edits is a move to
before the first position. -/
theorem undoEdits_undo_iff {group back : Group} (h : back.edits = group.undoEdits)
    (hbounds : ∀ edit ∈ group.edits, edit.NoOverflow) :
    back.undoEdits = group.redoEdits ↔ ∀ edit ∈ group.edits, ¬ edit.Clamps := by
  have hback : back.undoEdits = group.redoEdits ↔
      ∀ edit ∈ group.edits, edit.invert.invert = edit := by
    rw [undoEdits_eq h, redoEdits, ← List.map_inj_left, List.map_id']
  rw [hback]
  exact forall₂_congr fun edit hedit => Edit.invert_invert_iff (hbounds edit hedit)

/-- The edits that undo a group make a group. -/
theorem ofList_undoEdits (group : Group) (refresh : Option Path) (description : Option String) :
    ∃ back, ofList group.undoEdits refresh description = .ok back ∧
      back.edits = group.undoEdits := by
  have hne : group.undoEdits ≠ [] := by
    simpa [undoEdits] using group.nonempty
  refine ⟨⟨group.undoEdits, hne, refresh, description⟩, ?_, rfl⟩
  rw [ofList, ofList?, dif_neg hne]

end Group

/-- Inverting is an involution on the edits other than moves to before the first position, and only
on those. An edit and its inverse change one property of the document. The group of the edits that
undo a group is made, and what undoes it is what redoes the group exactly when no edit of the group
is such a move. -/
theorem invert_involution :
    (∀ edit : Edit, edit.invert.site = edit.site) ∧
    (∀ edit : Edit, edit.NoOverflow →
      ((edit.invert.invert = edit ↔ ¬ edit.Clamps) ∧
        (edit.WellFormed → (edit.invert.invert.same edit = true ↔ ¬ edit.Clamps)))) ∧
    ∀ (group : Group) (refresh : Option Path) (description : Option String),
      (∀ edit ∈ group.edits, edit.NoOverflow) →
        ∃ back, Group.ofList group.undoEdits refresh description = .ok back ∧
          (back.undoEdits = group.redoEdits ↔ ∀ edit ∈ group.edits, ¬ edit.Clamps) := by
  refine ⟨Edit.site_invert, fun edit hbounds => ⟨Edit.invert_invert_iff hbounds,
    fun hedit => Edit.invert_invert_same_iff hbounds hedit⟩, ?_⟩
  intro group refresh description hbounds
  obtain ⟨back, hback, hedits⟩ := Group.ofList_undoEdits group refresh description
  exact ⟨back, hback, Group.undoEdits_undo_iff hedits hbounds⟩

/-- A move of the second item of a list to before the first position. -/
def Edit.overshoot : Edit := .move ⟨[], "items"⟩ (.list 1) (-2)

/-- A group of a move inside a list, the assignment of an optional child and the split of a
block. -/
def Group.mixed : Group :=
  ⟨[.move ⟨[], "items"⟩ (.list 1) 2, .assign ⟨[], "more"⟩ none (.bare "D"),
    .splitBlock ⟨[], "groups"⟩ 0 1 .blank], List.cons_ne_nil _ _, none, none⟩

/-- A move that goes too far back is not the inverse of its inverse, not even up to the order of
properties; a group without one is redone by what undoes its undoing. -/
theorem invert_involution_mixed :
    Edit.overshoot.invert.invert ≠ Edit.overshoot ∧
      ¬ Edit.overshoot.invert.invert.same Edit.overshoot = true ∧
      (Edit.assign ⟨[], "more"⟩ none (.bare "D")).invert.invert =
        .assign ⟨[], "more"⟩ none (.bare "D") ∧
      ∃ back, Group.ofList Group.mixed.undoEdits none none = .ok back ∧
        back.undoEdits = Group.mixed.redoEdits := by
  obtain ⟨-, hedits, hgroups⟩ := invert_involution
  have hbounds : Edit.overshoot.NoOverflow := by decide
  have hclamps : Edit.overshoot.Clamps := by decide
  have hwell : Edit.overshoot.WellFormed := by decide
  obtain ⟨hequal, hsame⟩ := hedits Edit.overshoot hbounds
  have hassign : ¬ (Edit.assign ⟨[], "more"⟩ none (.bare "D")).Clamps := by decide
  obtain ⟨back, hback, hredo⟩ := hgroups Group.mixed none none (by decide)
  exact ⟨fun heq => hequal.mp heq hclamps, fun heq => (hsame hwell).mp heq hclamps,
    (hedits _ (by decide)).1.mpr hassign, back, hback, hredo.mpr (by decide)⟩

end TreeEditor
