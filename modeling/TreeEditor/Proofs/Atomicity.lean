import TreeEditor.Proofs.Runs

/-!
# Refused requests write nothing

`Editor.apply` gives either a changed editor or a failure, so it cannot leave an edit half made. An
editor whose document and states are overwritten in place has no such protection: a failure after
the first write would leave whatever was written until then. `Editor.runInPlace` carries requests
out in that way, and leaves an arbitrary wreck where an edit fails after its first write.

That never happens. `Editor.conditions` is what an edit asks before it writes anything. Its refusals
are those of the edit (`Editor.guards_apply`), and once all of it is granted the edit goes through
(`Editor.apply_of_conditions`): everything that could still fail, down to growing the states of the
nodes that were put in, has been decided by then. So the two ways of carrying out a request agree,
and a refused one leaves the editor as it was.
-/

namespace TreeEditor

/-! ## Failing first -/

section Guards

variable {ε α β γ : Type}

/-- What fails in one way makes something else fail in the same way. -/
def Guards (condition : Except ε α) (x : Except ε β) : Prop :=
  ∀ e, condition = .error e → x = .error e

namespace Guards

/-- What is granted guards anything. -/
theorem granted (a : α) (x : Except ε β) : Guards (.ok a : Except ε α) x := nofun

/-- A step guards the sequence that it begins. -/
theorem first (x : Except ε α) (f : α → Except ε β) : Guards x (x >>= f) := by
  rintro e rfl
  rfl

/-- Sequences that share a step guard each other when what comes after it does. -/
theorem bind (x : Except ε α) {f : α → Except ε β} {g : α → Except ε γ}
    (h : ∀ a, Guards (f a) (g a)) : Guards (x >>= f) (x >>= g) := by
  cases x with
  | ok a => exact h a
  | error e =>
    rintro _ ⟨⟩
    rfl

/-- A condition on which both fail. -/
theorem throwIf {p : Prop} [Decidable p] {e : ε} {rest : PUnit → Except ε α}
    {rest' : PUnit → Except ε β} {x : Except ε α} {y : Except ε β} (h : Guards x y) :
    Guards (if p then throw e >>= rest else x) (if p then throw e >>= rest' else y) := by
  split
  · rintro _ ⟨⟩
    rfl
  · exact h

/-- A condition on which both fail, the last one that is asked. -/
theorem throwLast {p : Prop} [Decidable p] {e : ε} {a : α} {rest : PUnit → Except ε β}
    {y : Except ε β} :
    Guards (if p then throw e else pure a : Except ε α) (if p then throw e >>= rest else y) := by
  split
  · rintro _ ⟨⟩
    rfl
  · exact granted a y

end Guards

end Guards

section Granted

variable {ε α β : Type} {p : Prop} [Decidable p] {e : ε} {a : α}

/-- A step with another result goes through exactly when the step does. -/
theorem map_eq_ok {x : Except ε β} {f : β → α} : x.map f = .ok a ↔ ∃ b, x = .ok b ∧ f b = a := by
  cases x <;> simp [Except.map]

/-- What is asked past a condition goes through exactly when the condition does not hold. -/
theorem throwIf_eq_ok {rest : PUnit → Except ε α} {x : Except ε α} :
    (if p then throw e >>= rest else x) = .ok a ↔ ¬ p ∧ x = .ok a := by
  by_cases hp : p
  · simp [hp]
  · simp [hp]

/-- A condition is passed exactly when it does not hold. -/
theorem throwLast_eq_ok : (if p then throw e else pure a : Except ε α) = .ok a ↔ ¬ p := by
  by_cases hp : p
  · simp [hp]
  · simp [hp]

end Granted

/-! ## What an edit asks first -/

/-- What a move asks first is where it leads. -/
theorem moveTarget_eq {α : Type} (position : Nat) (delta : Int) (items : List α) :
    moveTarget position delta items.length = (moveItem position delta items).map Prod.fst := by
  unfold moveItem
  cases htarget : moveTarget position delta items.length with
  | error reason => rfl
  | ok target =>
    obtain ⟨item, hitem⟩ := exists_getElem?.mpr (moveTarget_eq_ok.mp htarget).1
    rw [ok_bind, itemAt_eq_ok.mpr hitem]
    rfl

/-- What a move inside a branch asks first is where it leads. -/
theorem Branch.checkMove_eq (branch : Branch) (property : String) (slot : Slot) (delta : Int) :
    branch.checkMove property slot delta = (branch.move property slot delta).map Prod.fst := by
  cases branch with
  | list children =>
    cases slot with
    | list position =>
      rw [checkMove, moveTarget_eq, move]
      cases moveItem position delta children <;> rfl
    | _ => rfl
  | blockList blocks =>
    cases slot with
    | member block position =>
      rw [checkMove, Blocks.checkMoveMember, move, Blocks.moveMember]
      cases Blocks.blockAt block blocks with
      | error reason => rfl
      | ok content =>
        rw [ok_bind, moveTarget_eq, ok_bind]
        cases moveItem position delta content.members <;> rfl
    | _ => rfl
  | _ => cases slot <;> rfl

/-- An edit has an effect where it makes something of the property at its site. -/
theorem Locus.exists_effect {editor : Editor} {ν : Handle → Option Node} {address : BranchPath}
    (locus : Locus editor ν address) {edit : Edit} (hsite : edit.site = address)
    (htarget : edit.target editor.grammar locus.node =
      editor.grammar.branch? locus.node address.property) {P' : Property Node}
    (halter : edit.alter (Edit.admits editor.grammar locus.node.kind address.property)
      locus.property = some P') :
    ∃ document, edit.effect editor.grammar editor.document = some document := by
  subst hsite
  exact ⟨_, Edit.effect_eq_some.mpr ⟨locus.node, locus.property, P', locus.reach,
    htarget.trans locus.shaped, halter, rfl⟩⟩

namespace Editor

variable {editor : Editor} {ν : Handle → Option Node}

/-- All that an edit asks of the states, of the document and of the grammar before it writes
anything. -/
def conditions (editor : Editor) : Edit → Except Failure Unit
  | .insert branch slot node => do
    let owner ← editor.readyOwner branch.owner
    orRefuse ((← orRefuse (editor.store.branch owner branch.property)).checkInsert
      branch.property slot)
    orRefuse (editor.checkChild branch node)
  | .remove branch slot node => do
    let owner ← editor.readyOwner branch.owner
    let states ← orRefuse (editor.store.branch owner branch.property)
    orRefuse (states.checkRemove branch.property slot)
    orRefuse (checkNotLast states slot)
    orRefuse (editor.checkNode (branch.child slot) node)
  | .replace branch slot before after => do
    let owner ← editor.readyOwner branch.owner
    let states ← orRefuse (editor.store.branch owner branch.property)
    orRefuse (states.checkSlot branch.property slot)
    let current ← orElseRefuse (states.childAt? slot) (states.unfit branch.property slot)
    if (← editor.store.expect current).stage = .vacant then
      throw (.refused (.replaceVacant (.branch branch)))
    orRefuse (editor.checkNode (branch.child slot) before)
    orRefuse (editor.checkChild branch after)
  | .move branch slot delta => do
    let owner ← editor.readyOwner branch.owner
    let states ← orRefuse (editor.store.branch owner branch.property)
    let _ ← orRefuse (states.checkMove branch.property slot delta)
  | .assign branch before after => do
    let owner ← editor.readyOwner branch.owner
    let handle ← orRefuse (editor.optionalChild owner branch.property)
    if (← editor.store.expect handle).stage ≠ .vacant then
      throw (.refused (.alreadyAssigned (.branch branch)))
    let node ← orRefuse (editor.nodeAt branch.owner)
    let (_, retained) ← orRefuse (refuseShape (node.optional branch.property))
    if !sameItem retained before then
      throw (.refused (.retainedDiffers branch))
    orRefuse (editor.checkChild branch after)
  | .unassign branch item _ => do
    let owner ← editor.readyOwner branch.owner
    let handle ← orRefuse (editor.optionalChild owner branch.property)
    if (← editor.store.expect handle).stage ≠ .ready then
      throw (.refused (.notAssigned (.branch branch)))
    orRefuse (editor.checkNode (branch.child .optional) item)
  | .insertBlock branch block content => do
    let owner ← editor.readyOwner branch.owner
    orRefuse (Blocks.checkInsertBlock block
      (← orRefuse (editor.store.blocks owner branch.property)))
    if content.members.isEmpty then
      let node ← orRefuse (editor.nodeAt branch.owner)
      throw (.refused (.shape (.emptyBlock node.kind branch.property block)))
    orRefuse (content.members.forM (editor.checkChild branch))
  | .removeBlock branch block content => do
    let owner ← editor.readyOwner branch.owner
    let states ← orRefuse (editor.store.blocks owner branch.property)
    let _ ← orRefuse (Blocks.blockAt block states)
    if !(← editor.blockAt branch block).same content then
      throw (.refused (.blockDiffers block branch))
  | .splitBlock branch block position _ => do
    let owner ← editor.readyOwner branch.owner
    let states ← orRefuse (editor.store.blocks owner branch.property)
    orRefuse (Blocks.checkSplit block position states)
  | .mergeBlocks branch block position header => do
    let owner ← editor.readyOwner branch.owner
    let states ← orRefuse (editor.store.blocks owner branch.property)
    let length ← orRefuse (Blocks.checkMerge block states)
    if length ≠ position then
      throw (.refused (.lengthDiffers block branch length position))
    if !(← editor.blockAt branch (block + 1)).header.same header then
      throw (.refused (.blockDiffers (block + 1) branch))
  | .moveBlock branch block delta => do
    let owner ← editor.readyOwner branch.owner
    let states ← orRefuse (editor.store.blocks owner branch.property)
    let _ ← orRefuse (Blocks.checkMoveBlock block delta states)
  | .changeReplication branch block before _ => do
    let owner ← editor.readyOwner branch.owner
    let states ← orRefuse (editor.store.blocks owner branch.property)
    let _ ← orRefuse (Blocks.blockAt block states)
    if (← editor.blockAt branch block).header.replication ≠ before then
      throw (.refused (.replicationDiffers block branch before))
  | .setValue owner property before _ => do
    let _ ← editor.readyOwner owner
    let node ← orRefuse (editor.nodeAt owner)
    let leaf ← orRefuse (refuseShape (node.value property))
    if leaf ≠ before then
      throw (.refused (.valueDiffers property owner before))

/-- An edit is refused as its conditions are. -/
theorem guards_apply (editor : Editor) (edit : Edit) :
    Guards (editor.conditions edit) (editor.apply edit) := by
  -- Both ask the same first; the steps that they share are taken off one after the other.
  cases edit with
  | insert branch slot node =>
    unfold conditions apply applyInsert
    exact .bind _ fun owner => .bind _ fun states => .bind _ fun _ => .first _ _
  | remove branch slot node =>
    unfold conditions apply applyRemove
    exact .bind _ fun owner => .bind _ fun states => .bind _ fun _ => .bind _ fun _ => .first _ _
  | replace branch slot before after =>
    unfold conditions apply applyReplace
    exact .bind _ fun owner => .bind _ fun states => .bind _ fun _ => .bind _ fun current =>
      .bind _ fun state => .throwIf (.bind _ fun _ => .first _ _)
  | move branch slot delta =>
    unfold conditions apply applyMove
    -- The move itself is the check: it is refused in the same way.
    refine .bind _ fun owner => .bind _ fun states => ?_
    rw [Branch.checkMove_eq]
    cases states.move branch.property slot delta with
    | ok moved => exact .granted _ _
    | error reason =>
      rintro _ ⟨⟩
      rfl
  | assign branch before after =>
    unfold conditions apply applyAssign
    exact .bind _ fun owner => .bind _ fun handle => .bind _ fun state => .throwIf
      (.bind _ fun node => .bind _ fun optional => .throwIf (.first _ _))
  | unassign branch item restore =>
    unfold conditions apply applyUnassign
    exact .bind _ fun owner => .bind _ fun handle => .bind _ fun state => .throwIf (.first _ _)
  | insertBlock branch block content =>
    unfold conditions apply applyInsertBlock
    refine .bind _ fun owner => .bind _ fun states => .bind _ fun _ => ?_
    by_cases hempty : content.members.isEmpty
    · rw [if_pos hempty, if_pos hempty]
      refine .bind _ fun node => ?_
      rintro _ ⟨⟩
      rfl
    · rw [if_neg hempty, if_neg hempty]
      exact .first _ _
  | removeBlock branch block content =>
    unfold conditions apply applyRemoveBlock Blocks.removeBlock removeItem
    simp only [orRefuse_bind, bind_assoc]
    exact .bind _ fun owner => .bind _ fun states => .bind _ fun held => .bind _ fun current =>
      .throwLast
  | splitBlock branch block position header =>
    unfold conditions apply applySplitBlock Blocks.split
    simp only [orRefuse_bind, bind_assoc]
    exact .bind _ fun owner => .bind _ fun states => .first _ _
  | mergeBlocks branch block position header =>
    unfold conditions apply applyMergeBlocks
    refine .bind _ fun owner => .bind _ fun states => ?_
    cases hcheck : Blocks.checkMerge block states with
    | ok length =>
      obtain ⟨merged, hmerge⟩ := Blocks.merge_of_checkMerge hcheck
      rw [hmerge]
      exact .throwIf (.bind _ fun next => .throwLast)
    | error reason =>
      rw [Blocks.merge, hcheck]
      rintro _ ⟨⟩
      rfl
  | moveBlock branch block delta =>
    unfold conditions apply applyMoveBlock Blocks.moveBlock moveItem
    simp only [orRefuse_bind, bind_assoc]
    exact .bind _ fun owner => .bind _ fun states => .bind _ fun target => .granted _ _
  | changeReplication branch block before after =>
    unfold conditions apply applyChangeReplication Blocks.setReplication
    simp only [orRefuse_bind, bind_assoc]
    exact .bind _ fun owner => .bind _ fun states => .bind _ fun held => .bind _ fun current =>
      .throwLast
  | setValue owner property before after =>
    unfold conditions apply applySetValue
    exact .bind _ fun owner => .bind _ fun node => .bind _ fun leaf => .throwLast

/-! ## What is granted goes through -/

/-- Where the owner of an edit and its branch are read, the document has the property. -/
theorem exists_locus (hmirrors : editor.Mirrors ν) {address : BranchPath} {owner : Handle}
    {branch : Branch} (howner : editor.readyOwner address.owner = .ok owner)
    (hbranch : editor.store.branch owner address.property = .ok branch) :
    ∃ locus : Locus editor ν address, locus.owner = owner ∧ locus.branch = branch := by
  obtain ⟨node, -, hclimbs, -⟩ := (readyOwner_answers hmirrors address.owner).of_eq_ok howner
  exact Locus.exists_of_branch? hmirrors hclimbs (Store.branch_eq_ok.mp hbranch)

/-- The blocks at a locus are those of its branch. -/
theorem exists_blocks_locus (hmirrors : editor.Mirrors ν) {address : BranchPath} {owner : Handle}
    {states : List (Block Node Handle)} (howner : editor.readyOwner address.owner = .ok owner)
    (hstates : editor.store.blocks owner address.property = .ok states) :
    ∃ (locus : Locus editor ν address) (blocks : List (Block Node Node)),
      locus.property = .blockList blocks ∧
        List.Forall₂ (Block.Corresponds Eq (Labels ν)) blocks states := by
  obtain ⟨branch, hbranch, hblocks⟩ := bind_eq_ok.mp hstates
  obtain ⟨locus, rfl, rfl⟩ := exists_locus hmirrors howner hbranch
  have hrel := locus.reflects.blocks_rel address.property
  rw [hblocks, toOption_ok, rel_some_right] at hrel
  obtain ⟨blocks, hproperty, hcorrespond⟩ := hrel
  exact ⟨locus, blocks, Property.blocks?_eq_some.mp hproperty, hcorrespond⟩

/-- The state in an optional slot stands for the item when the slot is assigned. -/
theorem exists_optional_locus (hmirrors : editor.Mirrors ν) {address : BranchPath}
    {owner c : Handle}
    (howner : editor.readyOwner address.owner = .ok owner)
    (hchild : editor.optionalChild owner address.property = .ok c) :
    ∃ (locus : Locus editor ν address) (assigned : Bool) (item : Option Node) (state : State),
      locus.property = .optional assigned item ∧ editor.store.expect c = .ok state ∧
        (ν c = if assigned then item else none) ∧ Settled editor.grammar ν state (ν c) := by
  obtain ⟨branch, hbranch, hread⟩ := bind_eq_ok.mp hchild
  cases branch with
  | optional child =>
    cases hread
    obtain ⟨locus, rfl, hheld⟩ := exists_locus hmirrors howner hbranch
    obtain ⟨assigned, item, hproperty, hlabel⟩ := locus.exists_item hheld
    obtain ⟨state, hstate, -, hsettled⟩ := locus.exists_state .optional
      (locus.childAt?_optional hheld)
    exact ⟨locus, assigned, item, state, hproperty, Store.expect_eq_ok.mpr hstate, hlabel,
      hsettled⟩
  | _ => cases hread

/-- An insertion of which all conditions are granted has an effect. -/
theorem exists_effect_insert (hmirrors : editor.Mirrors ν) {branch : BranchPath} {slot : Slot}
    {node : Node} (h : editor.conditions (.insert branch slot node) = .ok ()) :
    ∃ document, (Edit.insert branch slot node).effect editor.grammar editor.document =
      some document := by
  simp only [conditions, bind_eq_ok, orRefuse_eq_ok] at h
  obtain ⟨owner, howner, states, hstates, ⟨⟩, hinsert, hchild⟩ := h
  obtain ⟨locus, rfl, rfl⟩ := exists_locus hmirrors howner hstates
  obtain ⟨P', halter⟩ := (locus.reflects.checkInsert_eq_ok _ slot node).mp hinsert
  refine locus.exists_effect rfl rfl (show _ = some P' from ?_)
  rw [Edit.alter, if_pos ((locus.checkChild_eq_ok node).mp hchild), halter]

/-- A removal of which all conditions are granted has an effect. -/
theorem exists_effect_remove (hmirrors : editor.Mirrors ν) {branch : BranchPath} {slot : Slot}
    {node : Node} (h : editor.conditions (.remove branch slot node) = .ok ()) :
    ∃ document, (Edit.remove branch slot node).effect editor.grammar editor.document =
      some document := by
  simp only [conditions, bind_eq_ok, orRefuse_eq_ok] at h
  obtain ⟨owner, howner, states, hstates, ⟨⟩, hremove, ⟨⟩, hothers, hnode⟩ := h
  obtain ⟨locus, rfl, rfl⟩ := exists_locus hmirrors howner hstates
  obtain ⟨⟨held, P'⟩, halter⟩ := (locus.reflects.checkRemove_eq_ok _ slot).mp hremove
  have hothers := (locus.checkNotLast_eq_ok slot).mp hothers
  have hsame := (locus.checkNode_eq_ok (Property.childAt?_of_removeAt halter) node).mp hnode
  refine locus.exists_effect rfl rfl (show _ = some P' from ?_)
  simp [Edit.alter, halter, hothers, hsame]

/-- A replacement of which all conditions are granted has an effect. -/
theorem exists_effect_replace (hmirrors : editor.Mirrors ν) {branch : BranchPath} {slot : Slot}
    {before after : Node} (h : editor.conditions (.replace branch slot before after) = .ok ()) :
    ∃ document, (Edit.replace branch slot before after).effect editor.grammar editor.document =
      some document := by
  simp only [conditions, bind_eq_ok, orRefuse_eq_ok, throwIf_eq_ok] at h
  obtain ⟨owner, howner, states, hstates, ⟨⟩, -, current, hcurrent, state, hstate, hfilled, ⟨⟩,
    hnode, hchild⟩ := h
  obtain ⟨locus, rfl, rfl⟩ := exists_locus hmirrors howner hstates
  have hslot : locus.branch.childAt? slot = some current := by
    cases hchildAt : locus.branch.childAt? slot with
    | none => rw [hchildAt] at hcurrent; cases hcurrent
    | some child => rw [hchildAt] at hcurrent; cases hcurrent; rfl
  obtain ⟨state', hstate', -, hsettled⟩ := locus.exists_state slot hslot
  rw [Store.expect_eq_ok.mpr hstate'] at hstate
  cases hstate
  -- The state in the slot is not vacant, so the document has a node there.
  cases hheld : locus.property.childAt? slot with
  | none =>
    rw [locus.reflects.label_eq hslot, hheld] at hsettled
    exact absurd (hsettled.vacant_iff.mpr rfl) hfilled
  | some held =>
    refine locus.exists_effect rfl rfl
      (show _ = some (locus.property.replaceChild slot after) from ?_)
    simp [Edit.alter, hheld, (locus.checkNode_eq_ok hheld before).mp hnode,
      (locus.checkChild_eq_ok after).mp hchild]

/-- A move of which all conditions are granted has an effect. -/
theorem exists_effect_move (hmirrors : editor.Mirrors ν) {branch : BranchPath} {slot : Slot}
    {delta : Int} (h : editor.conditions (.move branch slot delta) = .ok ()) :
    ∃ document, (Edit.move branch slot delta).effect editor.grammar editor.document =
      some document := by
  simp only [conditions, bind_eq_ok, orRefuse_eq_ok] at h
  obtain ⟨owner, howner, states, hstates, target, hmove, -⟩ := h
  obtain ⟨locus, rfl, rfl⟩ := exists_locus hmirrors howner hstates
  rw [Branch.checkMove_eq] at hmove
  obtain ⟨moved, hmoved, -⟩ := map_eq_ok.mp hmove
  have hrel := locus.reflects.move_rel branch.property slot delta
  rw [hmoved, toOption_ok, rel_some_right] at hrel
  obtain ⟨P', halter, -⟩ := hrel
  exact locus.exists_effect rfl rfl halter

/-- An assignment of which all conditions are granted has an effect. -/
theorem exists_effect_assign (hmirrors : editor.Mirrors ν) {branch : BranchPath}
    {before : Option Node} {after : Node}
    (h : editor.conditions (.assign branch before after) = .ok ()) :
    ∃ document, (Edit.assign branch before after).effect editor.grammar editor.document =
      some document := by
  simp only [conditions, bind_eq_ok, orRefuse_eq_ok, throwIf_eq_ok] at h
  obtain ⟨owner, howner, child, hoptional, state, hstate, hvacant, node, hnode, ⟨assigned, item⟩,
    hread, hsame, hchild⟩ := h
  obtain ⟨locus, assigned', item', state', hproperty, hstate', hlabel, hsettled⟩ :=
    exists_optional_locus hmirrors howner hoptional
  rw [hstate'] at hstate
  cases hstate
  rw [locus.nodeAt_eq_ok] at hnode
  cases hnode
  rw [refuseShape_eq_ok, Node.optional_eq_ok, locus.property?, hproperty] at hread
  cases hread
  rw [not_not, hsettled.vacant_iff, hlabel] at hvacant
  -- The state of the slot is vacant, so the child is not assigned or has no item.
  have hfree : (assigned && item.isSome) = false := by
    cases assigned <;> cases item <;> simp_all
  refine locus.exists_effect rfl rfl (show _ = some (.optional true (some after)) from ?_)
  rw [hproperty, Edit.alter]
  have hadmits := (locus.checkChild_eq_ok after).mp hchild
  simp_all

/-- An unassignment of which all conditions are granted has an effect. -/
theorem exists_effect_unassign (hmirrors : editor.Mirrors ν) {branch : BranchPath} {item : Node}
    {restore : Option Node} (h : editor.conditions (.unassign branch item restore) = .ok ()) :
    ∃ document, (Edit.unassign branch item restore).effect editor.grammar editor.document =
      some document := by
  simp only [conditions, bind_eq_ok, orRefuse_eq_ok, throwIf_eq_ok] at h
  obtain ⟨owner, howner, child, hoptional, state, hstate, hready, hnode⟩ := h
  obtain ⟨locus, assigned, held, state', hproperty, hstate', hlabel, hsettled⟩ :=
    exists_optional_locus hmirrors howner hoptional
  rw [hstate'] at hstate
  cases hstate
  rw [not_not, hsettled.stage_iff, hlabel] at hready
  obtain ⟨rfl, node, rfl⟩ : assigned = true ∧ ∃ node, held = some node := by
    cases assigned <;> cases held <;> simp_all
  have hheld : locus.property.childAt? .optional = some node := by rw [hproperty]; rfl
  have hsame := (locus.checkNode_eq_ok hheld item).mp hnode
  refine locus.exists_effect rfl rfl (show _ = some (.optional false restore) from ?_)
  rw [hproperty, Edit.alter]
  exact if_pos hsame

/-- An insertion of a block of which all conditions are granted has an effect. -/
theorem exists_effect_insertBlock (hmirrors : editor.Mirrors ν) {branch : BranchPath} {block : Nat}
    {content : Block Node Node} (h : editor.conditions (.insertBlock branch block content) = .ok ())
    :
    ∃ document, (Edit.insertBlock branch block content).effect editor.grammar editor.document =
      some document := by
  simp only [conditions, bind_eq_ok, orRefuse_eq_ok] at h
  obtain ⟨owner, howner, states, hstates, ⟨⟩, hinsert, h⟩ := h
  obtain ⟨locus, blocks, hblocks, hcorrespond⟩ := exists_blocks_locus hmirrors howner hstates
  by_cases hempty : content.members.isEmpty
  · rw [if_pos hempty, bind_eq_ok] at h
    obtain ⟨_, -, h⟩ := h
    cases h
  · rw [if_neg hempty, orRefuse_eq_ok, forM_eq_ok] at h
    have hadmits : content.members.all
        (Edit.admits editor.grammar locus.node.kind branch.property) = true :=
      List.all_eq_true.mpr fun node hnode => (locus.checkChild_eq_ok node).mp (h node hnode)
    rw [Blocks.checkInsertBlock, ← hcorrespond.length_eq] at hinsert
    obtain ⟨blocks', hdone⟩ : ∃ blocks',
        Blocks.insertBlock block content blocks = .ok blocks' := by
      rw [Blocks.insertBlock, insertItem, hinsert]
      exact ⟨_, rfl⟩
    refine locus.exists_effect rfl rfl (show _ = some (.blockList blocks') from ?_)
    simp [Edit.alter, hblocks, Property.blocks?, hempty, hadmits, hdone]

/-- A removal of a block of which all conditions are granted has an effect. -/
theorem exists_effect_removeBlock (hmirrors : editor.Mirrors ν) {branch : BranchPath} {block : Nat}
    {content : Block Node Node} (h : editor.conditions (.removeBlock branch block content) = .ok ())
    :
    ∃ document, (Edit.removeBlock branch block content).effect editor.grammar editor.document =
      some document := by
  simp only [conditions, bind_eq_ok, orRefuse_eq_ok, throwLast_eq_ok] at h
  obtain ⟨owner, howner, states, hstates, state, hthere, current, hcurrent, hsame⟩ := h
  obtain ⟨locus, blocks, hblocks, hcorrespond⟩ := exists_blocks_locus hmirrors howner hstates
  have hheld := (locus.blockAt_eq_ok hblocks).mp hcurrent
  have hremove := removeItem_eq_ok.mpr ⟨hheld, rfl⟩
  refine locus.exists_effect rfl rfl (show _ = some (.blockList (blocks.eraseIdx block)) from ?_)
  simp only [Edit.alter, hblocks, Property.blocks?, Option.bind_some, Blocks.removeBlock, hremove,
    toOption_ok]
  exact if_pos (by simpa using hsame)

/-- A split of a block of which all conditions are granted has an effect. -/
theorem exists_effect_splitBlock (hmirrors : editor.Mirrors ν) {branch : BranchPath}
    {block position : Nat} {header : Header Node}
    (h : editor.conditions (.splitBlock branch block position header) = .ok ()) :
    ∃ document, (Edit.splitBlock branch block position header).effect editor.grammar
      editor.document = some document := by
  simp only [conditions, bind_eq_ok, orRefuse_eq_ok] at h
  obtain ⟨owner, howner, states, hstates, hsplit⟩ := h
  obtain ⟨locus, blocks, hblocks, hcorrespond⟩ := exists_blocks_locus hmirrors howner hstates
  obtain ⟨states', hsplit⟩ := Blocks.split_of_checkSplit hsplit
  have hrel := Blocks.split_rel hcorrespond (rfl : header = header) block position
  rw [hsplit, toOption_ok, rel_some_right] at hrel
  obtain ⟨blocks', hblocks', -⟩ := hrel
  refine locus.exists_effect rfl rfl (show _ = some (.blockList blocks') from ?_)
  simp only [Edit.alter, hblocks, Property.blocks?, Option.bind_some, hblocks', Option.map_some]

/-- A join of two blocks of which all conditions are granted has an effect. -/
theorem exists_effect_mergeBlocks (hmirrors : editor.Mirrors ν) {branch : BranchPath}
    {block position : Nat} {header : Header Node}
    (h : editor.conditions (.mergeBlocks branch block position header) = .ok ()) :
    ∃ document, (Edit.mergeBlocks branch block position header).effect editor.grammar
      editor.document = some document := by
  simp only [conditions, bind_eq_ok, orRefuse_eq_ok, throwIf_eq_ok, throwLast_eq_ok] at h
  obtain ⟨owner, howner, states, hstates, length, hmerge, hlength, next, hnext, hsame⟩ := h
  obtain ⟨locus, blocks, hblocks, hcorrespond⟩ := exists_blocks_locus hmirrors howner hstates
  have hheld := (locus.blockAt_eq_ok hblocks).mp hnext
  obtain ⟨states', hmerge⟩ := Blocks.merge_of_checkMerge hmerge
  have hrel := Blocks.merge_rel hcorrespond block
  rw [hmerge, toOption_ok, rel_some_right] at hrel
  obtain ⟨⟨count, blocks'⟩, hblocks', hcount, -⟩ := hrel
  obtain rfl : count = length := hcount
  refine locus.exists_effect rfl rfl (show _ = some (.blockList blocks') from ?_)
  simp only [Edit.alter, hblocks, Property.blocks?, Option.bind_some, hblocks', hheld]
  simp_all

/-- A move of a block of which all conditions are granted has an effect. -/
theorem exists_effect_moveBlock (hmirrors : editor.Mirrors ν) {branch : BranchPath} {block : Nat}
    {delta : Int} (h : editor.conditions (.moveBlock branch block delta) = .ok ()) :
    ∃ document, (Edit.moveBlock branch block delta).effect editor.grammar editor.document =
      some document := by
  simp only [conditions, bind_eq_ok, orRefuse_eq_ok] at h
  obtain ⟨owner, howner, states, hstates, target, hmove, -⟩ := h
  obtain ⟨locus, blocks, hblocks, hcorrespond⟩ := exists_blocks_locus hmirrors howner hstates
  rw [Blocks.checkMoveBlock, ← hcorrespond.length_eq, moveTarget_eq] at hmove
  obtain ⟨⟨_, blocks'⟩, hmoved, -⟩ := map_eq_ok.mp hmove
  refine locus.exists_effect rfl rfl (show _ = some (.blockList blocks') from ?_)
  simp only [Edit.alter, hblocks, Property.blocks?, Option.bind_some, Blocks.moveBlock, hmoved,
    toOption_ok, Option.map_some]

/-- A change of replication of which all conditions are granted has an effect. -/
theorem exists_effect_changeReplication (hmirrors : editor.Mirrors ν) {branch : BranchPath}
    {block : Nat} {before after : Replication}
    (h : editor.conditions (.changeReplication branch block before after) = .ok ()) :
    ∃ document, (Edit.changeReplication branch block before after).effect editor.grammar
      editor.document = some document := by
  simp only [conditions, bind_eq_ok, orRefuse_eq_ok, throwLast_eq_ok] at h
  obtain ⟨owner, howner, states, hstates, state, hthere, current, hcurrent, hbefore⟩ := h
  obtain ⟨locus, blocks, hblocks, hcorrespond⟩ := exists_blocks_locus hmirrors howner hstates
  have hheld := (locus.blockAt_eq_ok hblocks).mp hcurrent
  obtain ⟨blocks', hset⟩ : ∃ blocks', Blocks.setReplication block after blocks = .ok blocks' := by
    rw [Blocks.setReplication, Blocks.blockAt_eq_ok.mpr hheld]
    exact ⟨_, rfl⟩
  refine locus.exists_effect rfl rfl (show _ = some (.blockList blocks') from ?_)
  simp only [Edit.alter, hblocks, Property.blocks?, Option.bind_some, hheld, hset, toOption_ok,
    Option.map_some]
  exact if_pos (not_not.mp hbefore)

/-- A change of a value of which all conditions are granted has an effect. -/
theorem exists_effect_setValue (hmirrors : editor.Mirrors ν) {owner : Path} {property : String}
    {before after : Leaf} (h : editor.conditions (.setValue owner property before after) = .ok ()) :
    ∃ document, (Edit.setValue owner property before after).effect editor.grammar editor.document =
      some document := by
  simp only [conditions, bind_eq_ok, orRefuse_eq_ok, throwLast_eq_ok] at h
  obtain ⟨handle, howner, node, hnode, leaf, hleaf, hbefore⟩ := h
  obtain ⟨owner', hreach, -⟩ := (readyOwner_answers hmirrors owner).of_eq_ok howner
  rw [nodeAt, Grammar.descend_of_reach hmirrors.wellFormed hreach] at hnode
  cases hnode
  rw [refuseShape_eq_ok, Node.value_eq_ok] at hleaf
  exact ⟨_, Edit.effect_eq_some.mpr ⟨node, .value leaf, .value after, hreach, hleaf,
    if_pos (not_not.mp hbefore), rfl⟩⟩

/-- An edit of which all conditions are granted has an effect on the document. -/
theorem effect_of_conditions (hmirrors : editor.Mirrors ν) {edit : Edit}
    (h : editor.conditions edit = .ok ()) :
    ∃ document, edit.effect editor.grammar editor.document = some document := by
  cases edit with
  | insert branch slot node => exact exists_effect_insert hmirrors h
  | remove branch slot node => exact exists_effect_remove hmirrors h
  | replace branch slot before after => exact exists_effect_replace hmirrors h
  | move branch slot delta => exact exists_effect_move hmirrors h
  | assign branch before after => exact exists_effect_assign hmirrors h
  | unassign branch item restore => exact exists_effect_unassign hmirrors h
  | insertBlock branch block content => exact exists_effect_insertBlock hmirrors h
  | removeBlock branch block content => exact exists_effect_removeBlock hmirrors h
  | splitBlock branch block position header => exact exists_effect_splitBlock hmirrors h
  | mergeBlocks branch block position header => exact exists_effect_mergeBlocks hmirrors h
  | moveBlock branch block delta => exact exists_effect_moveBlock hmirrors h
  | changeReplication branch block before after => exact exists_effect_changeReplication hmirrors h
  | setValue owner property before after => exact exists_effect_setValue hmirrors h

/-- An edit of which all conditions are granted is made: nothing that comes after its first write
fails. -/
theorem apply_of_conditions (hmirrors : editor.Mirrors ν) {edit : Edit} (hedit : edit.WellFormed)
    (h : editor.conditions edit = .ok ()) : ∃ after, editor.apply edit = .ok after := by
  obtain ⟨document, heffect⟩ := effect_of_conditions hmirrors h
  have hanswers := apply_answers hmirrors hedit
  rw [heffect] at hanswers
  obtain ⟨after, hafter, -⟩ := hanswers
  exact ⟨after, hafter⟩

/-! ## Writing in place -/

/-- Makes an edit on an editor that is overwritten. A failure before the first write leaves the
editor alone; one after it leaves a wreck, of which nothing is known. -/
def applyInPlace (wreck : Editor) (edit : Edit) (editor : Editor) : Outcome Unit :=
  match editor.conditions edit with
  | .error failure => (.error failure, editor)
  | .ok () =>
    match editor.apply edit with
    | .ok after => (.ok (), after)
    | .error failure => (.error failure, wreck)

/-- Carries a command out on an editor that is overwritten. Planning only reads. -/
def performInPlace (wreck : Editor) (command : Command) (editor : Editor) : Outcome Reply :=
  match editor.plan command with
  | .error failure => (.error failure, editor)
  | .ok (edit, refresh) =>
    match applyInPlace wreck edit editor with
    | (.error failure, left) => (.error failure, left)
    | (.ok (), after) =>
      match (after.recordEdit edit refresh).checked () with
      | (.ok (), editor) => (.ok (Command.reply command), editor)
      | (.error failure, editor) => (.error failure, editor)

/-- Carries a request out on an editor that is overwritten. Requests other than commands write
nothing but the history, or take edits back. -/
def runInPlace (wreck : Editor) (editor : Editor) : Request → Outcome Reply
  | .command command => performInPlace wreck command editor
  | request => editor.run request

/-- Overwriting an editor makes an edit as giving out another editor does. -/
theorem applyInPlace_eq (hmirrors : editor.Mirrors ν) {edit : Edit} (hedit : edit.WellFormed)
    (wreck : Editor) : applyInPlace wreck edit editor =
      match editor.apply edit with
      | .ok after => (.ok (), after)
      | .error failure => (.error failure, editor) := by
  unfold applyInPlace
  cases hconditions : editor.conditions edit with
  | error failure => rw [editor.guards_apply edit failure hconditions]
  | ok =>
    obtain ⟨after, hafter⟩ := apply_of_conditions hmirrors hedit hconditions
    rw [hafter]

/-- Overwriting an editor carries a request out as giving out another editor does. -/
theorem runInPlace_eq (h : editor.Steady) {request : Request} (hrequest : request.WellFormed)
    (wreck : Editor) : runInPlace wreck editor request = editor.run request := by
  obtain ⟨ν, hmirrors⟩ := h.sound
  -- Only a command writes in place.
  cases request with
  | command command =>
    change performInPlace wreck command editor = editor.perform command
    unfold performInPlace perform
    cases hplanned : editor.plan command with
    | error failure => rfl
    | ok planned =>
      obtain ⟨edit, refresh⟩ := planned
      have hedit : edit.WellFormed := h.brings hrequest ⟨refresh, hplanned⟩
      dsimp only
      rw [applyInPlace_eq hmirrors hedit, commit]
      cases editor.apply edit <;> rfl
  | _ => rfl

end Editor

/-- A request that does not make a group of edits. -/
def Request.Single : Request → Prop
  | .undo | .redo | .execute _ => False
  | _ => True

namespace Editor

/-- A refused request that does not make a group of edits leaves the whole editor as it was: the
document, the states with their handles, the register, what was announced, the groups and the open
batch. So it does when the editor is overwritten, whatever would be left by a failure after the
first write. -/
theorem unchanged_of_refused (h : editor.Reachable) {request : Request}
    (hrequest : request.WellFormed) (hsingle : request.Single) {reason : Refusal}
    (hrefused : (editor.run request).1 = .error (.refused reason)) :
    editor.run request = (.error (.refused reason), editor) ∧
      ∀ wreck, runInPlace wreck editor request = (.error (.refused reason), editor) := by
  have hsteady := h.steady
  have turn := run_turn hsteady hrequest
  have hsame : (editor.run request).2 = editor := by
    rw [hrefused] at turn
    generalize (editor.run request).2 = left at turn
    cases turn with
    | refused | batchOpen | noBatch | noState => rfl
    | failed hasks => cases hasks <;> exact hsingle.elim
  have hrun : editor.run request = (.error (.refused reason), editor) := Prod.ext hrefused hsame
  exact ⟨hrun, fun wreck => (runInPlace_eq hsteady hrequest wreck).trans hrun⟩

/-- A request to insert a node with an empty block under it, which no document may hold. -/
def hollowing : Request :=
  .command (.insert ⟨⟨0, 0⟩, "items", .list 0,
    .mk "New" [("inner", .child (.mk "Deep" [("rows", .blockList [⟨.blank, []⟩])]))]⟩)

/-- Requests that begin a batch and record an insertion in it. -/
def recording : List Request :=
  [.beginBatch none, .command (.insert ⟨⟨0, 0⟩, "items", .list 0, .bare "New"⟩)]

/-- In a batch that has recorded an insertion such a request is refused, and the batch stays as it
is. -/
theorem unchanged_of_hollowing : ∃ (editor : Editor) (reason : Refusal), editor.Reachable ∧
    hollowing.WellFormed ∧ hollowing.Single ∧
      (editor.history.batch.map fun batch => batch.edits.length) = some 1 ∧
      editor.run hollowing = (.error (.refused reason), editor) ∧
      ∀ wreck, runInPlace wreck editor hollowing = (.error (.refused reason), editor) := by
  have hhollowing : hollowing.WellFormed := by decide
  have hsingle : hollowing.Single := trivial
  obtain ⟨start, hstart, hbatch⟩ := exists_start (d := .sample) (g := .free) (s := .standard)
    (p := fun start =>
      match runAll recording start with
      | .ok (_, last) => (last.history.batch.map fun batch => batch.edits.length) = some 1 &&
        match (last.run hollowing).1 with
        | .error (.refused _) => true
        | _ => false
      | .error _ => false) (by cbv)
  cases hrun : runAll recording start with
  | error breach =>
    rw [hrun] at hbatch
    cases hbatch
  | ok found =>
    obtain ⟨answers, last⟩ := found
    rw [hrun] at hbatch
    obtain ⟨hcount, hanswer⟩ := Bool.and_eq_true_iff.mp hbatch
    have hreachable : last.Reachable := ⟨_, _, _, start, _, answers, Node.wellFormed_sample,
      Grammar.distinct_free, hstart, by decide, hrun⟩
    cases hresult : (last.run hollowing).1 with
    | ok reply =>
      rw [hresult] at hanswer
      cases hanswer
    | error failure =>
      rw [hresult] at hanswer
      cases failure with
      | broken breach => cases hanswer
      | refused reason =>
        exact ⟨last, reason, hreachable, hhollowing, hsingle, of_decide_eq_true hcount,
          unchanged_of_refused hreachable hhollowing hsingle hresult⟩

end Editor

end TreeEditor
