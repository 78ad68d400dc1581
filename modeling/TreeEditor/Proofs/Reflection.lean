import TreeEditor.Proofs.Effect
import TreeEditor.Proofs.Standing

/-!
# Branches and properties change alike

The states of a branch are changed by separate code from the nodes of the property that it reflects.
Here each change of a branch is set beside the change of the property: one is possible exactly when
the other is, and what comes out reflects again. A change of a branch moves its children about; that
it loses none and makes none up is said by permutations.
-/

namespace TreeEditor

namespace Branch

variable {branch branch' : Branch} {name : String} {slot : Slot} {child new : Handle}

/-- A child can be replaced where there is one; the other slots hold what they held. -/
theorem exists_replaceChild (name : String) (new : Handle) (h : branch.childAt? slot = some child) :
    ∃ branch', branch.replaceChild name slot new = .ok (child, branch') ∧
      ∀ other, branch'.childAt? other =
        if other = slot then some new else branch.childAt? other := by
  -- One case for each kind of branch; a slot of another kind holds no child.
  cases branch with
  | placeholder held =>
    cases slot <;> cases h
    exact ⟨_, rfl, fun other => by cases other <;> rfl⟩
  | optional held =>
    cases slot <;> cases h
    exact ⟨_, rfl, fun other => by cases other <;> rfl⟩
  | list children =>
    cases slot with
    | list position =>
      have hheld : children[position]? = some child := h
      obtain ⟨hlt, -⟩ := List.getElem?_eq_some_iff.mp hheld
      refine ⟨.list (children.set position new), ?_, fun other => ?_⟩
      · simp only [replaceChild, itemAt_eq_ok.mpr hheld, ok_bind, pure_eq_ok]
      · cases other with
        | list position' =>
          simp only [childAt?, List.getElem?_set, Slot.list.injEq, hlt, if_true]
          by_cases heq : position = position' <;> simp [heq, eq_comm]
        | _ => rfl
    | _ => cases h
  | blockList blocks =>
    cases slot with
    | member block position =>
      obtain ⟨content, hcontent, hheld⟩ := Option.bind_eq_some_iff.mp h
      obtain ⟨hlt, -⟩ := List.getElem?_eq_some_iff.mp hheld
      refine ⟨.blockList (Blocks.setMembers block (content.members.set position new) blocks), ?_,
        fun other => ?_⟩
      · simp only [replaceChild, Blocks.blockAt_eq_ok.mpr hcontent, ok_bind,
          itemAt_eq_ok.mpr hheld, pure_eq_ok]
      · cases other with
        | member block' position' =>
          simp only [childAt?, Blocks.setMembers, List.getElem?_modify, Slot.member.injEq]
          by_cases hblock : block = block'
          · subst hblock
            by_cases hposition : position = position'
            · subst hposition
              simp [hcontent, hlt]
            · simp [hcontent, hposition, Ne.symm hposition]
          · simp [hblock, Ne.symm hblock]
        | _ => rfl
    | _ => cases h

/-- Replacing a child by itself changes nothing. -/
theorem replaceChild_self (name : String) (h : branch.childAt? slot = some child) :
    branch.replaceChild name slot child = .ok (child, branch) := by
  cases branch with
  | placeholder held =>
    cases slot <;> cases h
    rfl
  | optional held =>
    cases slot <;> cases h
    rfl
  | list children =>
    cases slot with
    | list position =>
      have hheld : children[position]? = some child := h
      obtain ⟨hlt, hget⟩ := List.getElem?_eq_some_iff.mp hheld
      simp only [replaceChild, itemAt_eq_ok.mpr hheld, ok_bind, pure_eq_ok, ← hget,
        List.set_getElem_self]
    | _ => cases h
  | blockList blocks =>
    cases slot with
    | member block position =>
      obtain ⟨content, hcontent, hheld⟩ := Option.bind_eq_some_iff.mp h
      obtain ⟨hlt, hget⟩ := List.getElem?_eq_some_iff.mp hheld
      have hsame : Blocks.setMembers block (content.members.set position child) blocks =
          blocks := by
        apply List.ext_getElem?
        intro index
        rw [Blocks.setMembers, List.getElem?_modify]
        by_cases heq : block = index
        · subst heq
          simp [hcontent, ← hget]
        · simp [heq]
      simp only [replaceChild, Blocks.blockAt_eq_ok.mpr hcontent, ok_bind,
        itemAt_eq_ok.mpr hheld, pure_eq_ok, hsame]
    | _ => cases h

/-! ## What a change does to the children -/

/-- The children of a list. -/
theorem children_list (children : List Handle) : (list children).children = children :=
  map_snd_listSlots children

/-- The children of a list of blocks. -/
theorem children_blockList (blocks : List (Block Node Handle)) :
    (blockList blocks).children = Blocks.allMembers blocks := map_snd_blockSlots blocks

/-- The list that a slot is in is changed: the children of a list, or the members of one block. All
else is as before. -/
inductive Changes (change : Nat → List Handle → List Handle → Prop) :
    Slot → Branch → Branch → Prop where
  | list {position : Nat} {children children' : List Handle}
    (done : change position children children') :
    Changes change (.list position) (.list children) (.list children')
  | member {before after : List (Block Node Handle)} {content : Block Node Handle}
    {position : Nat} {members : List Handle} (done : change position content.members members) :
    Changes change (.member before.length position) (.blockList (before ++ content :: after))
      (.blockList (before ++ ⟨content.header, members⟩ :: after))

namespace Changes

variable {change : Nat → List Handle → List Handle → Prop}

open scoped List in
/-- The children gain and lose what the list gains and loses. -/
theorem perm (h : Changes change slot branch branch') (come gone : List Handle)
    (hperm : ∀ position items items', change position items items' →
      come ++ items ~ gone ++ items') : come ++ branch.children ~ gone ++ branch'.children := by
  cases h with
  | list done =>
    rw [children_list, children_list]
    exact hperm _ _ _ done
  | @member before after content position members done =>
    rw [children_blockList, children_blockList]
    have hparts := Blocks.allMembers_parts before after content
    have hparts' := Blocks.allMembers_parts before after ⟨content.header, members⟩
    generalize Blocks.allMembers before ++ Blocks.allMembers after = others at hparts hparts'
    calc come ++ Blocks.allMembers (before ++ content :: after)
      _ ~ come ++ (content.members ++ others) := hparts.append_left come
      _ ~ gone ++ (members ++ others) := by
        simpa using (hperm position _ _ done).append_right others
      _ ~ gone ++ Blocks.allMembers (before ++ ⟨content.header, members⟩ :: after) :=
        (hparts'.append_left gone).symm

/-- The slots of the list that is changed hold what the list holds. -/
theorem exists_items (h : Changes change slot branch branch') :
    ∃ position items items', change position items items' ∧ slot.moveTo position = slot ∧
      ∀ other, branch.childAt? (slot.moveTo other) = items[other]? ∧
        branch'.childAt? (slot.moveTo other) = items'[other]? := by
  cases h with
  | list done => exact ⟨_, _, _, done, rfl, fun _ => ⟨rfl, rfl⟩⟩
  | member done =>
    exact ⟨_, _, _, done, rfl, fun other => by simp [childAt?, Slot.moveTo]⟩

end Changes

/-- What putting a child into a branch changes. -/
theorem changes_of_insert (h : branch.insert name slot child = .ok branch') :
    Changes (fun position items items' => insertItem position child items = .ok items') slot
      branch branch' := by
  cases branch with
  | list children =>
    cases slot with
    | list position =>
      obtain ⟨children', hinsert, hlast⟩ := bind_eq_ok.mp h
      cases hlast
      exact .list hinsert
    | _ => cases h
  | blockList blocks =>
    cases slot with
    | member block position =>
      obtain ⟨blocks', hinsert, hlast⟩ := bind_eq_ok.mp h
      cases hlast
      obtain ⟨before, content, after, rfl, rfl, hle, rfl⟩ := Blocks.insertMember_eq_ok.mp hinsert
      exact .member (insertItem_eq_ok.mpr ⟨hle, rfl⟩)
    | _ => cases h
  | _ => cases slot <;> cases h

/-- What taking a child out of a branch changes. -/
theorem changes_of_remove (h : branch.remove name slot = .ok (child, branch')) :
    Changes (fun position items items' => removeItem position items = .ok (child, items')) slot
      branch branch' := by
  cases branch with
  | list children =>
    cases slot with
    | list position =>
      obtain ⟨⟨child', children'⟩, hremove, hlast⟩ := bind_eq_ok.mp h
      cases hlast
      exact .list hremove
    | _ => cases h
  | blockList blocks =>
    cases slot with
    | member block position =>
      obtain ⟨⟨child', blocks'⟩, hremove, hlast⟩ := bind_eq_ok.mp h
      cases hlast
      obtain ⟨before, content, after, rfl, rfl, hheld, rfl⟩ := Blocks.removeMember_eq_ok.mp hremove
      exact .member (removeItem_eq_ok.mpr ⟨hheld, rfl⟩)
    | _ => cases h
  | _ => cases slot <;> cases h

/-- What moving a child in a branch changes. -/
theorem changes_of_move {delta : Int} {target : Nat}
    (h : branch.move name slot delta = .ok (target, branch')) :
    Changes (fun position items items' => moveItem position delta items = .ok (target, items')) slot
      branch branch' := by
  cases branch with
  | list children =>
    cases slot with
    | list position =>
      obtain ⟨⟨target', children'⟩, hmove, hlast⟩ := bind_eq_ok.mp h
      cases hlast
      exact .list hmove
    | _ => cases h
  | blockList blocks =>
    cases slot with
    | member block position =>
      obtain ⟨⟨target', blocks'⟩, hmove, hlast⟩ := bind_eq_ok.mp h
      cases hlast
      obtain ⟨before, content, after, members, rfl, rfl, hmembers, rfl⟩ :=
        Blocks.moveMember_eq_ok.mp hmove
      exact .member hmembers
    | _ => cases h
  | _ => cases slot <;> cases h

/-- A child can be put in where the check says so. -/
theorem checkInsert_eq_ok (child : Handle) : branch.checkInsert name slot = .ok () ↔
    ∃ branch', branch.insert name slot child = .ok branch' := by
  cases branch with
  | list children =>
    cases slot with
    | list position =>
      simp only [checkInsert, insert, insertItem, bind_eq_ok, pure_eq_ok]
      constructor
      · exact fun h => ⟨_, _, ⟨(), h, rfl⟩, rfl⟩
      · rintro ⟨_, _, ⟨_, h, -⟩, -⟩
        exact h
    | _ => simp [checkInsert, insert]
  | blockList blocks =>
    cases slot with
    | member block position =>
      simp only [checkInsert, insert, Blocks.checkInsertMember, Blocks.insertMember, insertItem,
        bind_eq_ok, pure_eq_ok]
      constructor
      · rintro ⟨content, hcontent, h⟩
        exact ⟨_, _, ⟨content, hcontent, _, ⟨(), h, rfl⟩, rfl⟩, rfl⟩
      · rintro ⟨_, _, ⟨content, hcontent, _, ⟨_, h, -⟩, -⟩, -⟩
        exact ⟨content, hcontent, h⟩
    | _ => simp [checkInsert, insert]
  | _ => cases slot <;> simp [checkInsert, insert]

/-- A child that is put in is one more child. -/
theorem insert_perm (h : branch.insert name slot child = .ok branch') :
    branch'.children.Perm (child :: branch.children) :=
  ((changes_of_insert h).perm [child] [] fun _ _ _ done => (insertItem_perm done).symm).symm

/-- A child that is put in stands in its slot. -/
theorem childAt?_insert (h : branch.insert name slot child = .ok branch') :
    branch'.childAt? slot = some child := by
  obtain ⟨position, items, items', done, hslot, hitems⟩ := (changes_of_insert h).exists_items
  obtain ⟨hle, rfl⟩ := insertItem_eq_ok.mp done
  rw [← hslot, (hitems position).2, List.getElem?_insertIdx_self, if_pos hle]

/-- A child can be taken out where the check says so. -/
theorem checkRemove_eq_ok : branch.checkRemove name slot = .ok () ↔
    ∃ result, branch.remove name slot = .ok result := by
  cases branch with
  | list children =>
    cases slot with
    | list position =>
      simp [checkRemove, remove, removeItem, bind_eq_ok, checkExisting, itemAt_eq_ok,
        exists_getElem?]
    | _ => simp [checkRemove, remove]
  | blockList blocks =>
    cases slot with
    | member block position =>
      simp only [checkRemove, remove, Blocks.checkMember, Blocks.removeMember, removeItem,
        bind_eq_ok, pure_eq_ok, checkExisting, itemAt_eq_ok]
      constructor
      · rintro ⟨content, hcontent, h⟩
        have hlt : position < content.members.length := by
          by_contra hge
          simp [hge] at h
        obtain ⟨held, hheld⟩ := exists_getElem?.mpr hlt
        exact ⟨_, _, ⟨content, hcontent, _, ⟨held, hheld, rfl⟩, rfl⟩, rfl⟩
      · rintro ⟨_, _, ⟨content, hcontent, _, ⟨held, hheld, -⟩, -⟩, -⟩
        refine ⟨content, hcontent, ?_⟩
        rw [if_pos (exists_getElem?.mp ⟨held, hheld⟩)]
    | _ => simp [checkRemove, remove]
  | _ => cases slot <;> simp [checkRemove, remove]

/-- A child that is taken out is one child less. -/
theorem remove_perm (h : branch.remove name slot = .ok (child, branch')) :
    branch.children.Perm (child :: branch'.children) :=
  (changes_of_remove h).perm [] [child] fun _ _ _ done => removeItem_perm done

/-- A child that is taken out stood in its slot. -/
theorem childAt?_of_remove (h : branch.remove name slot = .ok (child, branch')) :
    branch.childAt? slot = some child := by
  obtain ⟨position, items, items', done, hslot, hitems⟩ := (changes_of_remove h).exists_items
  rw [← hslot, (hitems position).1, (removeItem_eq_ok.mp done).1]

/-- Moving a child moves the children about. -/
theorem move_perm {delta : Int} {target : Nat}
    (h : branch.move name slot delta = .ok (target, branch')) :
    branch'.children.Perm branch.children :=
  ((changes_of_move h).perm [] [] fun _ _ _ done => (moveItem_perm done).symm).symm

/-- A child that is moved stood in its slot and arrives at its target. -/
theorem childAt?_move {delta : Int} {target : Nat}
    (h : branch.move name slot delta = .ok (target, branch')) :
    ∃ child, branch.childAt? slot = some child ∧
      branch'.childAt? (slot.moveTo target) = some child := by
  obtain ⟨position, items, items', done, hslot, hitems⟩ := (changes_of_move h).exists_items
  obtain ⟨child, hheld, harrived⟩ := getElem?_moveItem done
  refine ⟨child, ?_, (hitems target).2.trans harrived⟩
  rw [← hslot, (hitems position).1, hheld]

/-- The replication of a block is of no account to its members. -/
theorem childAt?_setReplication {block : Nat} {replication : Replication}
    {states states' : List (Block Node Handle)}
    (h : Blocks.setReplication block replication states = .ok states') (slot : Slot) :
    (blockList states').childAt? slot = (blockList states).childAt? slot := by
  obtain ⟨before, content, after, rfl, rfl, rfl⟩ := Blocks.setReplication_eq_ok.mp h
  cases slot with
  | member other position =>
    rcases Nat.lt_trichotomy other before.length with hlt | rfl | hgt
    · simp [childAt?, List.getElem?_append_left hlt]
    · simp [childAt?]
    · obtain ⟨n, rfl⟩ := Nat.exists_eq_add_of_lt hgt
      simp [childAt?, List.getElem?_append_right, Nat.add_assoc]
  | _ => rfl

/-- A slot is that of a child where the check says so. -/
theorem checkSlot_eq_ok : branch.checkSlot name slot = .ok () ↔
    ∃ child, branch.childAt? slot = some child := by
  cases branch with
  | list children =>
    cases slot with
    | list position => simp [checkSlot, childAt?, checkExisting, exists_getElem?]
    | _ => simp [checkSlot, childAt?]
  | blockList blocks =>
    cases slot with
    | member block position =>
      simp only [checkSlot, childAt?, Blocks.checkMember, bind_eq_ok, Blocks.blockAt_eq_ok]
      cases blocks[block]? with
      | none => simp
      | some content => simp [checkExisting, exists_getElem?]
    | _ => simp [checkSlot, childAt?]
  | _ => cases slot <;> simp [checkSlot, childAt?]

end Branch

namespace Reflects

variable {ν ν' : Handle → Option Node} {P : Property Node} {branch branch' : Branch}
  {name : String} {slot : Slot} {node after : Node} {child new : Handle}

/-- Replacing a child and its state by others that stand for each other keeps the branch a
reflection. -/
theorem replaceChild (h : Reflects ν P branch) (hnode : P.childAt? slot = some node)
    (hreplace : branch.replaceChild name slot new = .ok (child, branch'))
    (hnew : ν' new = some after)
    (hothers : ∀ other held, other ≠ slot → branch.childAt? other = some held →
      ν' held = ν held) : Reflects ν' (P.replaceChild slot after) branch' := by
  cases h with
  | placeholder label =>
    cases slot <;> cases hnode
    cases hreplace
    exact .placeholder hnew
  | @optional assigned item held label =>
    cases slot <;> cases assigned <;> cases hnode
    cases hreplace
    exact .optional hnew
  | @list nodes children labels =>
    cases slot with
    | list position =>
      simp only [Branch.replaceChild, bind_eq_ok] at hreplace
      obtain ⟨held, -, hreplace⟩ := hreplace
      cases hreplace
      refine .list ?_
      rw [List.set_eq_modify, List.set_eq_modify]
      refine forall₂_modify_at labels position (fun other a b hne hb hab => ?_)
        fun _ _ _ _ _ => hnew
      exact (hothers (.list other) b (by simpa using hne) hb).trans hab
    | _ => cases hnode
  | @blockList blocks states labels =>
    cases slot with
    | member block position =>
      simp only [Branch.replaceChild, bind_eq_ok] at hreplace
      obtain ⟨state, hstate, held, -, hreplace⟩ := hreplace
      cases hreplace
      rw [Blocks.blockAt_eq_ok] at hstate
      have hmember : ∀ block' position' content held, states[block']? = some content →
          content.members[position']? = some held →
          (Branch.blockList states).childAt? (.member block' position') = some held := by
        intro block' position' content held hcontent hheld
        simp only [Branch.childAt?, hcontent]
        exact hheld
      refine .blockList (forall₂_modify_at labels block (fun other a b hne hb hab => ?_)
        fun a b _ hb hab => ?_)
      · refine ⟨hab.header, (forall₂_attach hab.members).imp ?_⟩
        rintro a b' ⟨-, hmem, hlabel⟩
        obtain ⟨position', hposition⟩ := List.mem_iff_getElem?.mp hmem
        exact (hothers (.member other position') b' (by simp [hne])
          (hmember other position' b b' hb hposition)).trans hlabel
      · rw [hstate] at hb
        cases hb
        refine ⟨hab.header, ?_⟩
        dsimp only
        rw [List.set_eq_modify, List.set_eq_modify]
        refine forall₂_modify_at hab.members position (fun other a b' hne hb' hlabel => ?_)
          fun _ _ _ _ _ => hnew
        exact (hothers (.member block other) b' (by simp [hne])
          (hmember block other state b' hstate hb')).trans hlabel
    | _ => cases hnode

/-- A child is put into a branch alike. -/
theorem insert_rel (h : Reflects ν P branch) (hlabel : ν child = some node) (name : String)
    (slot : Slot) :
    Option.Rel (Reflects ν) (P.insertAt slot node) (branch.insert name slot child).toOption := by
  cases h with
  | list labels =>
    cases slot with
    | list position =>
      exact rel_return (insertItem_rel labels (show Labels ν node child from hlabel) position)
        fun _ _ hlabels => .list hlabels
    | _ => exact .none
  | blockList labels =>
    cases slot with
    | member block position =>
      exact rel_return (Blocks.insertMember_rel labels (show Labels ν node child from hlabel) block
        position) fun _ _ hlabels => .blockList hlabels
    | _ => exact .none
  | _ => cases slot <;> exact .none

/-- A child is put into a branch where a node is put into the property. -/
theorem insert (h : Reflects ν P branch) (hlabel : ν child = some node) {P' : Property Node}
    (hinsert : P.insertAt slot node = some P') (name : String) :
    ∃ branch', branch.insert name slot child = .ok branch' ∧ Reflects ν P' branch' := by
  have hrel := h.insert_rel hlabel name slot
  rw [hinsert, rel_some_left] at hrel
  obtain ⟨branch', hbranch', hreflects⟩ := hrel
  exact ⟨branch', toOption_eq_some.mp hbranch', hreflects⟩

/-- A child can be put into a branch where a node can be put into the property. -/
theorem checkInsert_eq_ok (h : Reflects ν P branch) (name : String) (slot : Slot) (node : Node) :
    branch.checkInsert name slot = .ok () ↔ ∃ P', P.insertAt slot node = some P' := by
  -- What is put in does not matter for that, so any handle will do.
  have hrel : Option.Rel (fun _ _ => True) (P.insertAt slot node)
      (branch.insert name slot ⟨0, 0⟩).toOption := by
    cases h with
    | list labels =>
      cases slot with
      | list position =>
        have hany := labels.imp (S := fun _ _ => True) fun _ _ _ => trivial
        exact rel_return (insertItem_rel hany trivial position) fun _ _ _ => trivial
      | _ => exact .none
    | blockList labels =>
      cases slot with
      | member block position =>
        have hany := labels.imp (S := Block.Corresponds Eq fun _ _ => True)
          fun _ _ hblock => ⟨hblock.header, hblock.members.imp fun _ _ _ => trivial⟩
        exact rel_return (Blocks.insertMember_rel hany trivial block position) fun _ _ _ => trivial
      | _ => exact .none
    | _ => cases slot <;> exact .none
  rw [Branch.checkInsert_eq_ok ⟨0, 0⟩, ← rel_exists hrel]
  simp only [toOption_eq_some]

/-- A child is taken out of a branch alike. -/
theorem remove_rel (h : Reflects ν P branch) (name : String) (slot : Slot) :
    Option.Rel (fun a b => ν b.1 = some a.1 ∧ Reflects ν a.2 b.2) (P.removeAt slot)
      (branch.remove name slot).toOption := by
  cases h with
  | list labels =>
    cases slot with
    | list position =>
      exact rel_return (removeItem_rel labels position) fun _ _ hboth => ⟨hboth.1, .list hboth.2⟩
    | _ => exact .none
  | blockList labels =>
    cases slot with
    | member block position =>
      exact rel_return (Blocks.removeMember_rel labels block position) fun _ _ hboth =>
        ⟨hboth.1, .blockList hboth.2⟩
    | _ => exact .none
  | _ => cases slot <;> exact .none

/-- A child is taken out of a branch where a node is taken out of the property. -/
theorem remove (h : Reflects ν P branch) {P' : Property Node}
    (hremove : P.removeAt slot = some (node, P')) (name : String) :
    ∃ child branch', branch.remove name slot = .ok (child, branch') ∧ ν child = some node ∧
      Reflects ν P' branch' := by
  have hrel := h.remove_rel name slot
  rw [hremove, rel_some_left] at hrel
  obtain ⟨⟨child, branch'⟩, hbranch', hlabel, hreflects⟩ := hrel
  exact ⟨child, branch', toOption_eq_some.mp hbranch', hlabel, hreflects⟩

/-- A child can be taken out of a branch where a node can be taken out of the property. -/
theorem checkRemove_eq_ok (h : Reflects ν P branch) (name : String) (slot : Slot) :
    branch.checkRemove name slot = .ok () ↔ ∃ result, P.removeAt slot = some result := by
  rw [Branch.checkRemove_eq_ok]
  have hexists := rel_exists (h.remove_rel name slot)
  simpa only [toOption_eq_some] using hexists

/-- A child is moved inside a branch alike. -/
theorem move_rel (h : Reflects ν P branch) (name : String) (slot : Slot) (delta : Int) :
    Option.Rel (fun a b => Reflects ν a b.2) (P.moveAt slot delta)
      (branch.move name slot delta).toOption := by
  cases h with
  | list labels =>
    cases slot with
    | list position =>
      exact rel_return (moveItem_rel labels position delta) fun _ _ hboth => .list hboth.2
    | _ => exact .none
  | blockList labels =>
    cases slot with
    | member block position =>
      exact rel_return (Blocks.moveMember_rel labels block position delta) fun _ _ hboth =>
        .blockList hboth.2
    | _ => exact .none
  | _ => cases slot <;> exact .none

/-- The blocks of a branch correspond to those of the property. -/
theorem blocks_rel (h : Reflects ν P branch) (name : String) :
    Option.Rel (List.Forall₂ (Block.Corresponds Eq (Labels ν))) P.blocks?
      (branch.blocks name).toOption := by
  cases h with
  | blockList labels => exact .some labels
  | _ => exact .none

/-- A slot is in a block of one member alike. -/
theorem isOnlyMember_eq (h : Reflects ν P branch) (slot : Slot) :
    branch.isOnlyMember slot = P.isOnlyMember slot := by
  cases h with
  | @blockList blocks states labels =>
    cases slot with
    | member block position =>
      have hrel := rel_getElem? labels block
      simp only [Property.isOnlyMember, Branch.isOnlyMember]
      generalize blocks[block]? = content at hrel
      generalize states[block]? = state at hrel
      cases hrel with
      | none => rfl
      | some hab => simp [hab.members.length_eq]
    | _ => rfl
  | _ => rfl

end Reflects

end TreeEditor
