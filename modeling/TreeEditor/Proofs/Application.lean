import TreeEditor.Proofs.Assignment
import TreeEditor.Proofs.Conditions
import TreeEditor.Proofs.Insertion
import TreeEditor.Proofs.Replacement
import TreeEditor.Proofs.Withdrawal

/-!
# Making an edit

`Editor.apply` answers what `Edit.effect` says of the document (`Editor.apply_answers`): where the
edit has an effect it goes through, with the document changed as the effect says and the states
standing for it, and where it has none it is refused. It never breaks down. The proof follows each
edit through its conditions; each condition holds of the states exactly when it holds of the
property in the document, and past the last one the locus lemmas give the steps of the states.
-/

namespace TreeEditor

namespace Editor

variable {editor : Editor} {ν : Handle → Option Node}

/-! ## Edits of one child -/

/-- An insertion is made where it has an effect. -/
theorem applyInsert_answers (hmirrors : editor.Mirrors ν) {branch : BranchPath} {slot : Slot}
    {node : Node} (hnode : node.WellFormed) :
    Answers (editor.applyInsert branch slot node)
      ((Edit.insert branch slot node).effect editor.grammar editor.document)
      (editor.Makes ν (.insert branch slot node)) := by
  unfold applyInsert
  refine locus_answers hmirrors branch rfl (fun _ => rfl) fun locus => ?_
  -- The checks are taken off one after the other: where one fails the edit has no effect either.
  refine .guard (locus.reflects.checkInsert_eq_ok _ slot node) ?_ fun hnone => ?_
  · rintro ⟨P', hinsert⟩
    refine .guard (locus.checkChild_eq_ok node) (fun hadmits => ?_) fun hadmits => ?_
    · have halter : (Edit.insert branch slot node).alter (Edit.admits editor.grammar
          locus.node.kind branch.property) locus.property = some P' := by
        rw [Edit.alter, if_pos hadmits, hinsert]
      obtain ⟨c, σ₁, σ₂, σ₃, σ', hallocate, hmodify, hreindex, hsettle, hbecomes⟩ :=
        locus.insert hinsert (Edit.kind_alter halter) hnode (Edit.admits_iff.mp hadmits).valid
      have hchange := locus.changeDocument_eq_ok (Node.insertChild_eq_ok locus.property? hinsert)
      rw [halter, hchange, ok_bind]
      dsimp only
      rw [hallocate]
      dsimp only
      rw [hmodify, ok_bind, hreindex, ok_bind, growthAt_insert hchange, ok_bind, hsettle, ok_bind]
      exact .granted ⟨_, rfl, hbecomes.announce _⟩
    · rw [Edit.alter, if_neg hadmits]
  · rw [Edit.alter, ite_eq_right_iff]
    exact fun _ => Option.eq_none_iff_forall_ne_some.mpr fun P' hP' => hnone ⟨P', hP'⟩

/-- A removal is made where it has an effect. -/
theorem applyRemove_answers (hmirrors : editor.Mirrors ν) {branch : BranchPath} {slot : Slot}
    {node : Node} :
    Answers (editor.applyRemove branch slot node)
      ((Edit.remove branch slot node).effect editor.grammar editor.document)
      (editor.Makes ν (.remove branch slot node)) := by
  unfold applyRemove
  refine locus_answers hmirrors branch rfl (fun _ => rfl) fun locus => ?_
  refine .guard (locus.reflects.checkRemove_eq_ok _ slot) ?_ fun hnone => ?_
  · rintro ⟨⟨held, P'⟩, hremove⟩
    refine .guard (locus.checkNotLast_eq_ok slot) (fun hothers => ?_) fun honly => ?_
    · refine .guard (locus.checkNode_eq_ok (Property.childAt?_of_removeAt hremove) node)
        (fun hsame => ?_) fun hdiffers => ?_
      · have halter : (Edit.remove branch slot node).alter (Edit.admits editor.grammar
            locus.node.kind branch.property) locus.property = some P' := by
          simp [Edit.alter, hremove, hothers, hsame]
        obtain ⟨c, branch', σ₂, σ', hbranch', hdestroy, hreindex, hbecomes⟩ :=
          locus.remove hremove (Edit.kind_alter halter)
        rw [halter, locus.changeDocument_eq_ok (Node.removeChild_eq_ok locus.property? hremove),
          ok_bind, hbranch', orRefuse_ok, ok_bind]
        dsimp only
        rw [hdestroy, ok_bind, hreindex, ok_bind]
        exact .granted ⟨_, rfl, hbecomes.announce _⟩
      · simp [Edit.alter, hremove, hdiffers]
    · simp [Edit.alter, hremove, honly]
  · rw [Edit.alter, Option.eq_none_iff_forall_ne_some.mpr fun result hresult =>
      hnone ⟨result, hresult⟩]
    rfl

/-- A replacement is made where it has an effect. -/
theorem applyReplace_answers (hmirrors : editor.Mirrors ν) {branch : BranchPath} {slot : Slot}
    {before after : Node} (hafter : after.WellFormed) :
    Answers (editor.applyReplace branch slot before after)
      ((Edit.replace branch slot before after).effect editor.grammar editor.document)
      (editor.Makes ν (.replace branch slot before after)) := by
  unfold applyReplace
  refine locus_answers hmirrors branch rfl (fun _ => rfl) fun locus => ?_
  refine .guard Branch.checkSlot_eq_ok ?_ fun hnone => ?_
  · rintro ⟨c, hslot⟩
    have hplace := locus.stands_iff.mpr hslot
    obtain ⟨state, hstate, hat⟩ := Store.place?_eq_some.mp hplace
    have hlabel := locus.reflects.label_eq hslot
    have hsettled := hmirrors.standing.settled c state hstate (Set.notMem_empty c)
    rw [hslot, orElseRefuse_some, ok_bind, Store.expect_eq_ok.mpr hstate, ok_bind]
    -- The slot of an optional child may have a state and no node; the state is vacant then.
    cases hheld : locus.property.childAt? slot with
    | none =>
      rw [hlabel, hheld] at hsettled
      rw [if_pos (hsettled.vacant_iff.mpr rfl), Edit.alter, hheld]
      exact .refused _
    | some held =>
      rw [hlabel, hheld] at hsettled
      rw [if_neg (by simp [hsettled.vacant_iff])]
      refine .guard (locus.checkNode_eq_ok hheld before) (fun hsame => ?_) fun hdiffers => ?_
      · refine .guard (locus.checkChild_eq_ok after) (fun hadmits => ?_) fun hadmits => ?_
        · obtain ⟨c', σ₁, d, σ₂, σ₃, σ', hslot', hdestroy, hallocate, hmodify, hsettle, hbecomes⟩ :=
            locus.replace hheld hafter (Edit.admits_iff.mp hadmits).valid
          rw [hslot] at hslot'
          cases hslot'
          have hchange := locus.changeDocument_child hheld after
          rw [hchange, ok_bind, hat, hdestroy, ok_bind]
          dsimp only
          rw [hallocate]
          dsimp only
          rw [hmodify, ok_bind, growthAt_replace hchange, ok_bind, hsettle, ok_bind, Edit.alter,
            hheld, Option.bind_some,
            if_pos (by rw [hsame, hadmits]; rfl)]
          exact .granted ⟨_, rfl, hbecomes.announce _⟩
        · simp [Edit.alter, hheld, hadmits]
      · simp [Edit.alter, hheld, hdiffers]
  · have hvacant : locus.property.childAt? slot = none := by
      refine Option.eq_none_iff_forall_ne_some.mpr fun held hheld => hnone ?_
      obtain ⟨child, hchild, -⟩ := locus.reflects.exists_child hheld
      exact ⟨child, hchild⟩
    rw [Edit.alter, hvacant]
    rfl

/-- A move is made where it has an effect. -/
theorem applyMove_answers (hmirrors : editor.Mirrors ν) {branch : BranchPath} {slot : Slot}
    {delta : Int} :
    Answers (editor.applyMove branch slot delta)
      ((Edit.move branch slot delta).effect editor.grammar editor.document)
      (editor.Makes ν (.move branch slot delta)) := by
  unfold applyMove
  refine locus_answers hmirrors branch rfl (fun _ => rfl) fun locus => ?_
  refine (Answers.ofRel (locus.reflects.move_rel _ slot delta)).step
    (fun ⟨target, moved⟩ P' hmoved hmove hreflects => ?_) id
  have halter : (Edit.move branch slot delta).alter (Edit.admits editor.grammar
      locus.node.kind branch.property) locus.property = some P' := hmove
  obtain ⟨σ', hreindex, hbecomes⟩ := locus.rearrange (.move branch slot delta) rfl
    (fun _ => id) (fun _ => id) (Edit.kind_alter halter) hreflects
    (Branch.move_perm (orRefuse_eq_ok.mp hmoved)) fun _ _ => .move (orRefuse_eq_ok.mp hmoved)
  obtain ⟨child, -, hchild⟩ := Branch.childAt?_move (orRefuse_eq_ok.mp hmoved)
  rw [halter]
  dsimp only
  rw [locus.changeDocument_eq_ok (Node.moveChild_eq_ok locus.property? hmove), ok_bind, hreindex,
    ok_bind, hchild, orElseRefuse_some, ok_bind]
  exact .granted ⟨_, rfl, hbecomes.announce _⟩

/-! ## Edits of an optional child -/

/-- An assignment is made where it has an effect. -/
theorem applyAssign_answers (hmirrors : editor.Mirrors ν) {branch : BranchPath}
    {before : Option Node} {after : Node} (hafter : after.WellFormed) :
    Answers (editor.applyAssign branch before after)
      ((Edit.assign branch before after).effect editor.grammar editor.document)
      (editor.Makes ν (.assign branch before after)) := by
  unfold applyAssign
  refine optional_answers hmirrors branch rfl (fun _ => rfl) (fun allows P hP => ?_)
    fun locus assigned item c hoptional hslot hlabel => ?_
  · cases P with
    | optional _ _ => exact absurd rfl hP
    | _ => rfl
  obtain ⟨state, hstate, -, hsettled⟩ := locus.exists_state .optional
    (locus.childAt?_optional hslot)
  have hvacant : state.stage = .vacant ↔ (assigned && item.isSome) = false := by
    rw [hsettled.vacant_iff, hlabel]
    cases assigned <;> cases item <;> simp
  rw [Store.expect_eq_ok.mpr hstate, ok_bind, Edit.alter]
  refine .refuseIf (fun hstage => ?_) fun hstage => ?_
  · simp [Bool.eq_true_of_not_eq_false fun hfree => hstage (hvacant.mpr hfree)]
  have hfree := hvacant.mp (not_not.mp hstage)
  have hread : locus.node.optional branch.property = .ok (assigned, item) :=
    Node.optional_eq_ok.mpr (hoptional ▸ locus.property?)
  dsimp only
  rw [locus.nodeAt_eq_ok, orRefuse_ok, ok_bind, hread, refuseShape_ok, orRefuse_ok, ok_bind]
  refine .refuseIf (fun hdiffers => ?_) fun hsame => ?_
  · rw [Bool.not_eq_true'] at hdiffers
    simp [hdiffers]
  refine .guard (locus.checkChild_eq_ok after) (fun hadmits => ?_) fun hadmits => ?_
  · obtain ⟨σ', hgrowth, hlive, hbecomes⟩ := locus.assign before hoptional hslot
      (hsettled.vacant_iff.mp (hvacant.mpr hfree)) hafter (Edit.admits_iff.mp hadmits).valid
    have hchange := locus.changeDocument_eq_ok (Node.setOptional_eq_ok
      (hoptional ▸ locus.property?) true (some after))
    obtain ⟨last, hlast⟩ := Store.live_setStage.mpr hlive
    rw [hchange, ok_bind, growthAt_assign hchange, ok_bind, hgrowth, ok_bind,
      Store.enter_of_live hlive, ok_bind, Store.expect_eq_ok.mpr hlast, ok_bind,
      if_pos (by simpa [hfree, hadmits] using hsame)]
    exact .granted ⟨_, rfl, hbecomes.announce _⟩
  · simp [hadmits]

/-- An unassignment is made where it has an effect. -/
theorem applyUnassign_answers (hmirrors : editor.Mirrors ν) {branch : BranchPath} {item : Node}
    {restore : Option Node} :
    Answers (editor.applyUnassign branch item restore)
      ((Edit.unassign branch item restore).effect editor.grammar editor.document)
      (editor.Makes ν (.unassign branch item restore)) := by
  unfold applyUnassign
  refine optional_answers hmirrors branch rfl (fun _ => rfl) (fun allows P hP => ?_)
    fun locus assigned held c hoptional hslot hlabel => ?_
  · cases P with
    | optional _ _ => exact absurd rfl hP
    | _ => rfl
  obtain ⟨state, hstate, -, hsettled⟩ := locus.exists_state .optional
    (locus.childAt?_optional hslot)
  rw [Store.expect_eq_ok.mpr hstate, ok_bind]
  cases hchild : (if assigned then held else none) with
  | none =>
    rw [hchild] at hlabel
    rw [if_pos (by rw [ne_eq, hsettled.stage_iff, hlabel]; nofun)]
    cases assigned with
    | false => exact .refused _
    | true =>
      obtain rfl : held = none := hchild
      exact .refused _
  | some node =>
    obtain ⟨rfl, rfl⟩ : assigned = true ∧ held = some node := by
      cases assigned with
      | false => cases hchild
      | true => exact ⟨rfl, hchild⟩
    rw [hchild] at hlabel
    rw [if_neg (by rw [ne_eq, hsettled.stage_iff, hlabel]; simp)]
    dsimp only
    have hheld : locus.property.childAt? .optional = some node := by rw [hoptional]; rfl
    refine .guard (locus.checkNode_eq_ok hheld item) (fun hsame => ?_) fun hdiffers => ?_
    · obtain ⟨σ', hclear, hlive, hbecomes⟩ := locus.unassign item restore hoptional hslot
      obtain ⟨last, hlast⟩ := Store.live_setStage.mpr hlive
      rw [locus.changeDocument_eq_ok (Node.setOptional_eq_ok (hoptional ▸ locus.property?)
        false restore), ok_bind, hclear, ok_bind, Store.enter_of_live hlive, ok_bind,
        Store.expect_eq_ok.mpr hlast, ok_bind, Edit.alter, if_pos hsame]
      exact .granted ⟨_, rfl, hbecomes.announce _⟩
    · rw [Edit.alter, if_neg hdiffers]

/-! ## Edits of blocks -/

/-- A block is inserted where that has an effect. -/
theorem applyInsertBlock_answers (hmirrors : editor.Mirrors ν) {branch : BranchPath} {block : Nat}
    {content : Block Node Node} (hnodes : ∀ node ∈ content.members, node.WellFormed) :
    Answers (editor.applyInsertBlock branch block content)
      ((Edit.insertBlock branch block content).effect editor.grammar editor.document)
      (editor.Makes ν (.insertBlock branch block content)) := by
  unfold applyInsertBlock
  refine blocks_answers hmirrors branch rfl (fun _ => rfl)
    (fun _ P hP => by rw [Edit.alter, Property.blocks?_of_kind hP]; rfl)
    fun locus blocks states hblocks hstates hcorrespond => ?_
  rw [Edit.alter, Property.blocks?, Option.bind_some]
  have hcheck : Blocks.checkInsertBlock block states = .ok () ↔
      ∃ blocks', Blocks.insertBlock block content blocks = .ok blocks' := by
    simp only [Blocks.insertBlock, insertItem_eq_ok, exists_and_left, exists_eq, and_true,
      Blocks.checkInsertBlock, checkInsertion, hcorrespond.length_eq]
    split <;> simp [*]
  refine .guard hcheck ?_ fun hnone => ?_
  · rintro ⟨blocks', hinsert⟩
    by_cases hempty : content.members.isEmpty
    · rw [if_pos hempty, locus.nodeAt_eq_ok, orRefuse_ok, ok_bind, if_neg (by simp [hempty])]
      exact .refused _
    rw [if_neg hempty]
    have hall : content.members.forM (editor.checkChild branch) = .ok () ↔
        content.members.all (Edit.admits editor.grammar locus.node.kind branch.property) =
          true := by
      rw [forM_eq_ok, List.all_eq_true]
      simp only [locus.checkChild_eq_ok]
    refine .guard hall (fun hadmits => ?_) fun hadmits => ?_
    · obtain ⟨σ₁, σ₂, σ', hmodify, hreindex, hgrow, hbecomes⟩ :=
        locus.insertBlock hblocks hstates hinsert fun node hnode => ⟨hnodes node hnode,
          (Edit.admits_iff.mp (List.all_eq_true.mp hadmits node hnode)).valid⟩
      have hchange := locus.changeDocument_eq_ok
        (Node.modifyBlocks_eq_ok (hblocks ▸ locus.property?) hinsert)
      dsimp only
      rw [hchange, ok_bind, hmodify, ok_bind, hreindex, ok_bind, growMembers_eq hchange, hgrow,
        ok_bind, hinsert, toOption_ok,
        if_pos (by rw [hadmits, Bool.eq_false_of_not_eq_true hempty]; rfl)]
      exact .granted ⟨_, rfl, hbecomes.announce _⟩
    · rw [if_neg (by simp [hadmits])]
  · have hnot : (Blocks.insertBlock block content blocks).toOption = none :=
      Option.eq_none_iff_forall_ne_some.mpr fun blocks' hblocks' =>
        hnone ⟨blocks', toOption_eq_some.mp hblocks'⟩
    rw [hnot, Option.map_none, ite_self]

/-- A block is removed where that has an effect. -/
theorem applyRemoveBlock_answers (hmirrors : editor.Mirrors ν) {branch : BranchPath} {block : Nat}
    {content : Block Node Node} :
    Answers (editor.applyRemoveBlock branch block content)
      ((Edit.removeBlock branch block content).effect editor.grammar editor.document)
      (editor.Makes ν (.removeBlock branch block content)) := by
  unfold applyRemoveBlock
  refine blocks_answers hmirrors branch rfl (fun _ => rfl)
    (fun _ P hP => by rw [Edit.alter, Property.blocks?_of_kind hP]; rfl)
    fun locus blocks states hblocks hstates hcorrespond => ?_
  rw [Edit.alter, Property.blocks?, Option.bind_some]
  refine (Answers.ofRel (removeItem_rel hcorrespond block)).step ?_ fun hnone => by
    rw [Blocks.removeBlock, hnone]; rfl
  rintro ⟨removed, states'⟩ ⟨held, blocks'⟩ hremoved hheld ⟨hcontent, hreflects⟩
  have hremove := toOption_eq_some.mp hheld
  obtain ⟨hthere, -⟩ := removeItem_eq_ok.mp hremove
  dsimp only
  rw [Blocks.removeBlock, hheld, Option.bind_some, (locus.blockAt_eq_ok hblocks).mpr hthere,
    ok_bind]
  refine .refuseIf (fun hdiffers => ?_) fun hsame => ?_
  · rw [if_neg (by simpa using hdiffers)]
  rw [Bool.not_eq_true, Bool.not_eq_false'] at hsame
  have hcount : removed.members.length = content.members.length :=
    hcontent.members.length_eq.symm.trans (Block.related_iff.mp hsame).members.length_eq
  obtain ⟨σ₂, σ', hreindex, hdestroy, hbecomes⟩ := locus.removeBlock hstates
    (orRefuse_eq_ok.mp hremoved) hcount (Reflects.blockList hreflects)
  have hchange : (do return (← Blocks.removeBlock block blocks).2) = .ok blocks' := by
    rw [Blocks.removeBlock, hremove]
    rfl
  rw [locus.changeDocument_eq_ok (Node.modifyBlocks_eq_ok (hblocks ▸ locus.property?) hchange),
    ok_bind, hreindex, ok_bind, hdestroy, ok_bind, if_pos hsame]
  exact .granted ⟨_, rfl, hbecomes.announce _⟩

/-- A block is split where that has an effect. -/
theorem applySplitBlock_answers (hmirrors : editor.Mirrors ν) {branch : BranchPath}
    {block position : Nat} {header : Header Node} :
    Answers (editor.applySplitBlock branch block position header)
      ((Edit.splitBlock branch block position header).effect editor.grammar editor.document)
      (editor.Makes ν (.splitBlock branch block position header)) := by
  unfold applySplitBlock
  refine blocks_answers hmirrors branch rfl (fun _ => rfl)
    (fun _ P hP => by rw [Edit.alter, Property.blocks?_of_kind hP]; rfl)
    fun locus blocks states hblocks hstates hcorrespond => ?_
  rw [Edit.alter, Property.blocks?, Option.bind_some]
  refine (Answers.ofRel (Blocks.split_rel hcorrespond rfl block position)).step ?_ fun hnone => by
    rw [hnone]; rfl
  intro states' blocks' hstates' hblocks' hreflects
  have hkind : (Property.blockList blocks').kind = locus.property.kind := by rw [hblocks]; rfl
  obtain ⟨σ', hreindex, hbecomes⟩ := locus.rearrange (.splitBlock branch block position header)
    rfl (fun _ => id) (fun _ => id) hkind (.blockList hreflects) (by
      rw [hstates, Branch.children_blockList, Branch.children_blockList,
        Blocks.allMembers_split (orRefuse_eq_ok.mp hstates')]) fun _ _ =>
    hstates ▸ .splitBlock (orRefuse_eq_ok.mp hstates')
  dsimp only
  rw [hblocks', locus.changeDocument_eq_ok (Node.modifyBlocks_eq_ok (hblocks ▸ locus.property?)
    (toOption_eq_some.mp hblocks')), ok_bind, hreindex, ok_bind]
  exact .granted ⟨_, rfl, (hbecomes.announce _).announce _⟩

/-- Two blocks are joined where that has an effect. -/
theorem applyMergeBlocks_answers (hmirrors : editor.Mirrors ν) {branch : BranchPath}
    {block position : Nat} {header : Header Node} :
    Answers (editor.applyMergeBlocks branch block position header)
      ((Edit.mergeBlocks branch block position header).effect editor.grammar editor.document)
      (editor.Makes ν (.mergeBlocks branch block position header)) := by
  unfold applyMergeBlocks
  refine blocks_answers hmirrors branch rfl (fun _ => rfl)
    (fun _ P hP => by rw [Edit.alter, Property.blocks?_of_kind hP]; rfl)
    fun locus blocks states hblocks hstates hcorrespond => ?_
  rw [Edit.alter, Property.blocks?, Option.bind_some]
  refine (Answers.ofRel (Blocks.merge_rel hcorrespond block)).step ?_ fun hnone => by
    rw [hnone]; rfl
  rintro ⟨length, states'⟩ ⟨count, blocks'⟩ hstates' hblocks' ⟨hlength, hreflects⟩
  -- Corresponding blocks have as many members, so the lengths given back are one number.
  obtain rfl : count = length := hlength
  have hmerge := toOption_eq_some.mp hblocks'
  obtain ⟨before, content, next, after, hparts, hbefore, -⟩ := Blocks.merge_eq_ok.mp hmerge
  have hnext : blocks[block + 1]? = some next := by rw [hparts, ← hbefore]; simp
  dsimp only
  rw [hblocks', Option.bind_some, hnext, Option.bind_some]
  refine .refuseIf (fun hdiffers => if_neg (by simp [hdiffers])) fun hposition => ?_
  rw [not_not] at hposition
  rw [(locus.blockAt_eq_ok hblocks).mpr hnext, ok_bind]
  refine .refuseIf (fun hdiffers => if_neg (by simpa using fun _ => hdiffers)) fun hsame => ?_
  have hkind : (Property.blockList blocks').kind = locus.property.kind := by rw [hblocks]; rfl
  obtain ⟨σ', hreindex, hbecomes⟩ := locus.rearrange (.mergeBlocks branch block position header)
    rfl (fun _ => id) (fun _ => id) hkind (.blockList hreflects) (by
      rw [hstates, Branch.children_blockList, Branch.children_blockList,
        Blocks.allMembers_merge (orRefuse_eq_ok.mp hstates')]) fun _ _ =>
    hstates ▸ .mergeBlocks (hposition ▸ orRefuse_eq_ok.mp hstates')
  have hchange : (do return (← Blocks.merge block blocks).2) = .ok blocks' := by
    rw [hmerge]
    rfl
  rw [locus.changeDocument_eq_ok (Node.modifyBlocks_eq_ok (hblocks ▸ locus.property?) hchange),
    ok_bind, hreindex, ok_bind, if_pos (by simpa [hposition] using hsame)]
  exact .granted ⟨_, rfl, (hbecomes.announce _).announce _⟩

/-- A block is moved where that has an effect. -/
theorem applyMoveBlock_answers (hmirrors : editor.Mirrors ν) {branch : BranchPath} {block : Nat}
    {delta : Int} :
    Answers (editor.applyMoveBlock branch block delta)
      ((Edit.moveBlock branch block delta).effect editor.grammar editor.document)
      (editor.Makes ν (.moveBlock branch block delta)) := by
  unfold applyMoveBlock
  refine blocks_answers hmirrors branch rfl (fun _ => rfl)
    (fun _ P hP => by rw [Edit.alter, Property.blocks?_of_kind hP]; rfl)
    fun locus blocks states hblocks hstates hcorrespond => ?_
  rw [Edit.alter, Property.blocks?, Option.bind_some]
  refine (Answers.ofRel (moveItem_rel hcorrespond block delta)).step ?_ fun hnone => by
    rw [Blocks.moveBlock, hnone]; rfl
  rintro ⟨target, states'⟩ ⟨arrived, blocks'⟩ hstates' hblocks' ⟨-, hreflects⟩
  have hkind : (Property.blockList blocks').kind = locus.property.kind := by rw [hblocks]; rfl
  obtain ⟨σ', hreindex, hbecomes⟩ := locus.rearrange (.moveBlock branch block delta)
    rfl (fun _ => id) (fun _ => id) hkind (.blockList hreflects) (by
      rw [hstates, Branch.children_blockList, Branch.children_blockList]
      exact Blocks.moveBlock_perm (orRefuse_eq_ok.mp hstates')) fun _ _ =>
    hstates ▸ .moveBlock (orRefuse_eq_ok.mp hstates')
  have hchange : (do return (← Blocks.moveBlock block delta blocks).2) = .ok blocks' := by
    rw [Blocks.moveBlock, toOption_eq_some.mp hblocks']
    rfl
  dsimp only
  rw [locus.changeDocument_eq_ok (Node.modifyBlocks_eq_ok (hblocks ▸ locus.property?) hchange),
    Blocks.moveBlock, hblocks', ok_bind, hreindex, ok_bind]
  exact .granted ⟨_, rfl, hbecomes.announce _⟩

/-- The replication of a block is changed where that has an effect. -/
theorem applyChangeReplication_answers (hmirrors : editor.Mirrors ν) {branch : BranchPath}
    {block : Nat} {before after : Replication} :
    Answers (editor.applyChangeReplication branch block before after)
      ((Edit.changeReplication branch block before after).effect editor.grammar editor.document)
      (editor.Makes ν (.changeReplication branch block before after)) := by
  unfold applyChangeReplication
  refine blocks_answers hmirrors branch rfl (fun _ => rfl)
    (fun _ P hP => by rw [Edit.alter, Property.blocks?_of_kind hP]; rfl)
    fun locus blocks states hblocks hstates hcorrespond => ?_
  rw [Edit.alter, Property.blocks?, Option.bind_some]
  have hrel : Option.Rel _ (Blocks.setReplication block after blocks).toOption _ :=
    Blocks.setReplication_rel hcorrespond (fun _ _ heq => by rw [heq]) block
  refine (Answers.ofRel hrel).step ?_ fun hnone => by simp [hnone]
  intro states' blocks' hstates' hblocks' hreflects
  obtain ⟨first, held, rest, hparts, hfirst, -⟩ :=
    Blocks.setReplication_eq_ok.mp (toOption_eq_some.mp hblocks')
  have hheld : blocks[block]? = some held := by rw [hparts, ← hfirst]; simp
  rw [(locus.blockAt_eq_ok hblocks).mpr hheld, ok_bind, hheld, Option.bind_some]
  refine .refuseIf (fun hdiffers => if_neg hdiffers) fun hsame => ?_
  have hset := orRefuse_eq_ok.mp hstates'
  have hkind : (Property.blockList blocks').kind = locus.property.kind := by rw [hblocks]; rfl
  -- No child changes its slot, so the states stay where they are.
  have hbecomes := locus.redress (.changeReplication branch block before after)
    rfl (fun _ => id) (fun _ => id) hkind (.blockList hreflects) (fun slot => by
      rw [hstates, Branch.childAt?_setReplication (orRefuse_eq_ok.mp hstates')]) (by
      rw [hstates, Branch.children_blockList, Branch.children_blockList,
        Blocks.allMembers_setReplication hset]) fun _ _ =>
    hstates ▸ .changeReplication (orRefuse_eq_ok.mp hstates')
  dsimp only
  rw [locus.changeDocument_eq_ok (Node.modifyBlocks_eq_ok
      (hblocks ▸ locus.property?) (toOption_eq_some.mp hblocks')),
    ok_bind, hblocks', if_pos (not_not.mp hsame)]
  exact .granted ⟨_, rfl, hbecomes.announce _⟩

/-! ## Edits of a value -/

/-- A leaf is changed where that has an effect. -/
theorem applySetValue_answers (hmirrors : editor.Mirrors ν) {owner : Path} {property : String}
    {before after : Leaf} :
    Answers (editor.applySetValue owner property before after)
      ((Edit.setValue owner property before after).effect editor.grammar editor.document)
      (editor.Makes ν (.setValue owner property before after)) := by
  unfold applySetValue Edit.effect
  refine (readyOwner_answers hmirrors owner).bind fun h node _ hreach ⟨hclimbs, hlabel⟩ => ?_
  have hnode := Grammar.wellFormed_reach hmirrors.wellFormed hreach
  have hnodeAt : editor.nodeAt owner = .ok node :=
    Grammar.descend_of_reach hmirrors.wellFormed hreach
  rw [hnodeAt, orRefuse_ok, ok_bind, Edit.target]
  -- A value is no branch: whether it can be changed is read off the document alone.
  have hread : Answers (orRefuse (refuseShape (node.value property)))
      (node.value property).toOption Eq := by
    cases node.value property with
    | error fault => exact .refused _
    | ok leaf => exact .granted rfl
  refine hread.step (fun leaf _ hleaf _ _ => ?_) fun hnone => ?_
  · rw [orRefuse_eq_ok, refuseShape_eq_ok, Node.value_eq_ok] at hleaf
    dsimp only [Edit.site]
    rw [hleaf, Option.bind_eq_bind, Option.bind_some, Edit.alter]
    refine .refuseIf (fun hdiffers => by rw [if_neg hdiffers]; rfl) fun hsame => ?_
    obtain ⟨ν', hσ', hroot, hturns⟩ := hmirrors.setValue hclimbs hlabel hnode hleaf after
    obtain rfl := not_not.mp hsame
    rw [changeDocument, Node.modifyAt_eq_ok hnodeAt (Node.setValue_eq_ok hleaf after), orBreak_ok,
      ok_bind, if_pos rfl]
    exact .granted ⟨_, ν', rfl, hσ'.announce _, hroot, hturns.announce _⟩
  · rw [Option.eq_none_iff_forall_ne_some] at hnone
    refine Option.bind_eq_none_iff.mpr fun P hP => ?_
    cases P with
    | value leaf => exact absurd (toOption_eq_some.mpr (Node.value_eq_ok.mpr hP)) (hnone leaf)
    | _ => rfl

/-! ## All edits -/

/-- An edit is made where it has an effect, and is refused elsewhere. -/
theorem apply_answers (hmirrors : editor.Mirrors ν) {edit : Edit} (hedit : edit.WellFormed) :
    Answers (editor.apply edit) (edit.effect editor.grammar editor.document)
      (editor.Makes ν edit) := by
  cases edit with
  | insert branch slot node =>
    exact applyInsert_answers hmirrors (hedit node (List.mem_singleton_self node))
  | remove => exact applyRemove_answers hmirrors
  | replace branch slot before after =>
    exact applyReplace_answers hmirrors (hedit after (by simp [Edit.nodes]))
  | move => exact applyMove_answers hmirrors
  | assign branch before after =>
    exact applyAssign_answers hmirrors (hedit after (by simp [Edit.nodes]))
  | unassign => exact applyUnassign_answers hmirrors
  | insertBlock branch block content =>
    exact applyInsertBlock_answers hmirrors fun node hnode =>
      hedit node (List.mem_cons_of_mem _ (List.mem_cons_of_mem _ hnode))
  | removeBlock => exact applyRemoveBlock_answers hmirrors
  | splitBlock => exact applySplitBlock_answers hmirrors
  | mergeBlocks => exact applyMergeBlocks_answers hmirrors
  | moveBlock => exact applyMoveBlock_answers hmirrors
  | changeReplication => exact applyChangeReplication_answers hmirrors
  | setValue => exact applySetValue_answers hmirrors

end Editor

end TreeEditor
