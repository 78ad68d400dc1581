import TreeEditor.Proofs.Inverse
import TreeEditor.Proofs.Locus

/-!
# Changes of branches taken back

When an edit is taken back the branch of its property is changed back (`Edit.Rewrites.back`). The
states that the edit removed do not come back with it: others stand in their slots. So the branch
that comes back is not the one that was there, but corresponds to it, slot by slot, and all states
that are left of the old ones are in the slots that they were in.

The rules about the positions of an edit do not look at the states of a branch. What is done to
corresponding branches gives corresponding branches, and that is all that is used here of the
branches that the edit is taken back on: they correspond to those that the edit made.
-/

namespace TreeEditor

/-- Two handles are the same as far as some handles are concerned: each of these is both of them or
neither. -/
def SameAmong (S : Set Handle) (a b : Handle) : Prop := ∀ ⦃g⦄, g ∈ S → (g = a ↔ g = b)

namespace SameAmong

variable {S : Set Handle} {a b : Handle}

/-- Every handle is the same as itself. -/
theorem refl (S : Set Handle) (a : Handle) : SameAmong S a a := fun _ _ => .rfl

/-- Handles of no concern are not told apart. -/
theorem of_notMem (ha : a ∉ S) (hb : b ∉ S) : SameAmong S a b := fun _ hg =>
  iff_of_false (fun heq => ha (heq ▸ hg)) fun heq => hb (heq ▸ hg)

/-- A handle of concern is the same as itself alone. -/
theorem eq (h : SameAmong S a b) (ha : a ∈ S) : a = b := (h ha).mp rfl

end SameAmong

namespace Branch

variable {R R' : Handle → Handle → Prop} {a a' b b' : Branch} {c d : Handle} {name : String}
  {slot : Slot}

/-- Two branches have corresponding states in the same slots. The headers of blocks are of no
account. -/
inductive Corresponds (R : Handle → Handle → Prop) : Branch → Branch → Prop
  | placeholder {a b : Handle} (child : R a b) : Corresponds R (.placeholder a) (.placeholder b)
  | optional {a b : Handle} (child : R a b) : Corresponds R (.optional a) (.optional b)
  | list {as bs : List Handle} (children : List.Forall₂ R as bs) :
    Corresponds R (.list as) (.list bs)
  | blockList {as bs : List (Block Node Handle)}
    (blocks : List.Forall₂ (Block.Corresponds (fun _ _ => True) R) as bs) :
    Corresponds R (.blockList as) (.blockList bs)

namespace Corresponds

/-- Every branch corresponds to itself when its states do. -/
theorem refl (hR : ∀ c, R c c) (a : Branch) : a.Corresponds R a := by
  cases a with
  | placeholder child => exact .placeholder (hR child)
  | optional child => exact .optional (hR child)
  | list children => exact .list (List.forall₂_same.mpr fun c _ => hR c)
  | blockList blocks =>
    exact .blockList (List.forall₂_same.mpr fun content _ =>
      ⟨trivial, List.forall₂_same.mpr fun c _ => hR c⟩)

/-- How the states are related is of account only for those of the first branch. -/
theorem imp (h : a.Corresponds R b) (hR : ∀ c ∈ a.children, ∀ d, R c d → R' c d) :
    a.Corresponds R' b := by
  cases h with
  | placeholder child => exact .placeholder (hR _ (List.mem_singleton_self _) _ child)
  | optional child => exact .optional (hR _ (List.mem_singleton_self _) _ child)
  | list children =>
    rw [children_list] at hR
    exact .list ((forall₂_attach children).imp fun c d ⟨hc, _, hcd⟩ => hR c hc d hcd)
  | blockList blocks =>
    rw [children_blockList] at hR
    refine .blockList ((forall₂_attach blocks).imp fun held _ ⟨hheld, _, _, hmembers⟩ => ?_)
    exact ⟨trivial, (forall₂_attach hmembers).imp fun c d ⟨hc, _, hcd⟩ =>
      hR c (List.mem_flatMap_of_mem hheld hc) d hcd⟩

/-- Corresponding branches have corresponding states in a slot. -/
theorem childAt?_rel (h : a.Corresponds R b) (slot : Slot) :
    Option.Rel R (a.childAt? slot) (b.childAt? slot) := by
  cases h with
  | placeholder child => cases slot with
    | placeholder => exact .some child
    | _ => exact .none
  | optional child => cases slot with
    | optional => exact .some child
    | _ => exact .none
  | list children => cases slot with
    | list position => exact rel_getElem? children position
    | _ => exact .none
  | blockList blocks => cases slot with
    | member block position =>
      exact rel_bind (rel_getElem? blocks block) fun _ _ hcontent =>
        rel_getElem? hcontent.members position
    | _ => exact .none

/-- Corresponding branches take corresponding states alike. -/
theorem insert (h : a.Corresponds R b) (hcd : R c d) (ha : a.insert name slot c = .ok a')
    (hb : b.insert name slot d = .ok b') : a'.Corresponds R b' := by
  refine rel_ok ?_ ha hb
  cases h with
  | list children => cases slot with
    | list position =>
      exact rel_step (insertItem_rel children hcd position) fun _ _ hrest => .some (.list hrest)
    | _ => exact .none
  | blockList blocks => cases slot with
    | member block position =>
      exact rel_step (Blocks.insertMember_rel blocks hcd block position) fun _ _ hrest =>
        .some (.blockList hrest)
    | _ => exact .none
  | _ => cases slot <;> exact .none

/-- Corresponding branches give up states alike. -/
theorem remove (h : a.Corresponds R b) (ha : a.remove name slot = .ok (c, a'))
    (hb : b.remove name slot = .ok (d, b')) : a'.Corresponds R b' := by
  refine rel_ok (R := fun x y => x.2.Corresponds R y.2) ?_ ha hb
  cases h with
  | list children => cases slot with
    | list position =>
      exact rel_step (removeItem_rel children position) fun _ _ hboth => .some (.list hboth.2)
    | _ => exact .none
  | blockList blocks => cases slot with
    | member block position =>
      exact rel_step (Blocks.removeMember_rel blocks block position) fun _ _ hboth =>
        .some (.blockList hboth.2)
    | _ => exact .none
  | _ => cases slot <;> exact .none

/-- States of corresponding branches move alike. -/
theorem move (h : a.Corresponds R b) {delta : Int} {target target' : Nat}
    (ha : a.move name slot delta = .ok (target, a'))
    (hb : b.move name slot delta = .ok (target', b')) : a'.Corresponds R b' := by
  refine rel_ok (R := fun x y => x.2.Corresponds R y.2) ?_ ha hb
  cases h with
  | list children => cases slot with
    | list position =>
      exact rel_step (moveItem_rel children position delta) fun _ _ hboth => .some (.list hboth.2)
    | _ => exact .none
  | blockList blocks => cases slot with
    | member block position =>
      exact rel_step (Blocks.moveMember_rel blocks block position delta) fun _ _ hboth =>
        .some (.blockList hboth.2)
    | _ => exact .none
  | _ => cases slot <;> exact .none

/-- States of corresponding branches are replaced alike. -/
theorem replaceChild (h : a.Corresponds R b) (hcd : R c d) {held held' : Handle}
    (ha : a.replaceChild name slot c = .ok (held, a'))
    (hb : b.replaceChild name slot d = .ok (held', b')) : a'.Corresponds R b' := by
  refine rel_ok (R := fun x y => x.2.Corresponds R y.2) ?_ ha hb
  cases h with
  | placeholder => cases slot with
    | placeholder => exact .some (.placeholder hcd)
    | _ => exact .none
  | optional => cases slot with
    | optional => exact .some (.optional hcd)
    | _ => exact .none
  | list children => cases slot with
    | list position =>
      exact rel_step (itemAt_rel children position) fun _ _ _ =>
        .some (.list (forall₂_set children hcd position))
    | _ => exact .none
  | blockList blocks => cases slot with
    | member block position =>
      refine rel_step (itemAt_rel blocks block) fun _ _ hcontent => ?_
      have hset := forall₂_set hcontent.members hcd position
      exact rel_step (itemAt_rel hcontent.members position) fun _ _ _ => .some
        (.blockList (Blocks.setMembers_rel blocks hset block))
    | _ => exact .none

/-- Lists of blocks correspond when their members do. -/
theorem blockList_iff {as bs : List (Block Node Handle)} :
    (Branch.blockList as).Corresponds R (.blockList bs) ↔
      List.Forall₂ (List.Forall₂ R) (as.map Block.members) (bs.map Block.members) := by
  rw [List.forall₂_map_left_iff, List.forall₂_map_right_iff]
  constructor
  · intro h
    cases h with
    | blockList blocks => exact blocks.imp fun _ _ hcontent => hcontent.members
  · exact fun h => .blockList (h.imp fun _ _ hmembers => ⟨trivial, hmembers⟩)

end Corresponds

/-- What was taken in can be given up. -/
theorem remove_of_insert (h : a.insert name slot c = .ok b) :
    b.remove name slot = .ok (c, a) := by
  cases a with
  | list children => cases slot with
    | list position =>
      obtain ⟨children', hinsert, hlast⟩ := bind_eq_ok.mp h
      cases hlast
      rw [Branch.remove, removeItem_of_insertItem hinsert]
      rfl
    | _ => cases h
  | blockList blocks => cases slot with
    | member block position =>
      obtain ⟨blocks', hinsert, hlast⟩ := bind_eq_ok.mp h
      cases hlast
      rw [Branch.remove, Blocks.removeMember_of_insertMember hinsert]
      rfl
    | _ => cases h
  | _ => cases slot <;> cases h

/-- What was given up can be taken in again. -/
theorem insert_of_remove (h : a.remove name slot = .ok (c, b)) :
    b.insert name slot c = .ok a := by
  cases a with
  | list children => cases slot with
    | list position =>
      obtain ⟨⟨held, children'⟩, hremove, hlast⟩ := bind_eq_ok.mp h
      cases hlast
      rw [Branch.insert, insertItem_of_removeItem_self hremove]
      rfl
    | _ => cases h
  | blockList blocks => cases slot with
    | member block position =>
      obtain ⟨⟨held, blocks'⟩, hremove, hlast⟩ := bind_eq_ok.mp h
      cases hlast
      rw [Branch.insert, Blocks.insertMember_of_removeMember_self hremove]
      rfl
    | _ => cases h
  | _ => cases slot <;> cases h

/-- What was replaced can be put in its place again. -/
theorem replaceChild_invert (h : a.replaceChild name slot d = .ok (c, b)) :
    b.replaceChild name slot c = .ok (d, a) := by
  cases a with
  | placeholder | optional =>
    cases slot <;> cases h
    rfl
  | list children => cases slot with
    | list position =>
      obtain ⟨held, hheld, hlast⟩ := bind_eq_ok.mp h
      cases hlast
      obtain ⟨hlt, hget⟩ := List.getElem?_eq_some_iff.mp (itemAt_eq_ok.mp hheld)
      have hset : itemAt position (children.set position d) = .ok d :=
        itemAt_eq_ok.mpr (List.getElem?_set_self hlt)
      rw [Branch.replaceChild, hset, ok_bind, List.set_set, ← hget, List.set_getElem_self]
      rfl
    | _ => cases h
  | blockList blocks => cases slot with
    | member block position =>
      obtain ⟨content, hcontent, h⟩ := bind_eq_ok.mp h
      obtain ⟨held, hheld, hlast⟩ := bind_eq_ok.mp h
      cases hlast
      have hblock := Blocks.blockAt_eq_ok.mp hcontent
      obtain ⟨hlt, hget⟩ := List.getElem?_eq_some_iff.mp (itemAt_eq_ok.mp hheld)
      have hset : Blocks.blockAt block
          (Blocks.setMembers block (content.members.set position d) blocks) =
            .ok { content with members := content.members.set position d } := by
        rw [Blocks.blockAt_eq_ok, Blocks.getElem?_setMembers, if_pos rfl, hblock]
        rfl
      have hitem : itemAt position (content.members.set position d) = .ok d :=
        itemAt_eq_ok.mpr (List.getElem?_set_self hlt)
      rw [Branch.replaceChild, hset, ok_bind, hitem, ok_bind, Blocks.setMembers_setMembers,
        List.set_set, ← hget, List.set_getElem_self, Blocks.setMembers_self hblock]
      rfl
    | _ => cases h

/-- A move is taken back by the opposite move from where it arrived. -/
theorem move_invert {delta : Int} {target : Nat} (h : a.move name slot delta = .ok (target, b)) :
    ∃ source, b.move name (Edit.shiftedSlot slot delta) (-delta) = .ok (source, a) := by
  cases a with
  | list children => cases slot with
    | list position =>
      obtain ⟨⟨arrived, children'⟩, hmove, hlast⟩ := bind_eq_ok.mp h
      cases hlast
      rw [show Edit.shiftedSlot (.list position) delta = .list target from
        congrArg Slot.list (shifted_eq (moveItem_eq_ok.mp hmove).1), Branch.move,
        moveItem_invert hmove]
      exact ⟨position, rfl⟩
    | _ => cases h
  | blockList blocks => cases slot with
    | member block position =>
      obtain ⟨⟨arrived, blocks'⟩, hmove, hlast⟩ := bind_eq_ok.mp h
      cases hlast
      obtain ⟨_, _, _, _, -, -, hitem, -⟩ := Blocks.moveMember_eq_ok.mp hmove
      rw [show Edit.shiftedSlot (.member block position) delta = .member block target from
        congrArg (Slot.member block) (shifted_eq (moveItem_eq_ok.mp hitem).1), Branch.move,
        Blocks.moveMember_invert hmove]
      exact ⟨position, rfl⟩
    | _ => cases h
  | _ => cases slot <;> cases h

end Branch

namespace Blocks

variable {as bs : List (Block Node Handle)}

/-- A change of a header leaves the blocks their members. -/
theorem map_members_modify (block : Nat) (header : Block Node Handle → Header Node) :
    (as.modify block fun content => { content with header := header content }).map Block.members =
      as.map Block.members := by
  induction as generalizing block with
  | nil => simp
  | cons content rest ih => cases block with
    | zero => simp
    | succ block => simpa using ih block

/-- A change of replication leaves the blocks their members. -/
theorem map_members_setReplication {block : Nat} {replication : Replication}
    (h : setReplication block replication as = .ok bs) :
    bs.map Block.members = as.map Block.members := by
  obtain ⟨content, -, hlast⟩ := bind_eq_ok.mp h
  cases hlast
  exact map_members_modify block _

/-- Blocks that were joined and are split where the first one ended have the members that they had.
-/
theorem map_members_split_of_merge {block position : Nat} {header : Header Node}
    {cs : List (Block Node Handle)} (hmerge : merge block as = .ok (position, bs))
    (hsplit : split block position header bs = .ok cs) :
    cs.map Block.members = as.map Block.members := by
  obtain ⟨before, content, next, after, rfl, rfl, rfl, rfl⟩ := merge_eq_ok.mp hmerge
  obtain ⟨before', joined, after', heq, hlength, -, -, rfl⟩ := split_eq_ok.mp hsplit
  obtain ⟨rfl, hrest⟩ := List.append_inj heq hlength.symm
  cases hrest
  simp

end Blocks

open Branch (Corresponds)

/-- Taking an edit back gives a branch that corresponds to the one that was there: the states that
the edit removed are of no concern any more, and those that come in their stead are not yet. -/
theorem Edit.Rewrites.back {S : Set Handle} {edit : Edit} {gone came gone' came' : Handle → Prop}
    {old new old' new' : Branch} (h : edit.Rewrites gone came old new)
    (hback : edit.invert.Rewrites gone' came' new' old') (hgone : ∀ c, gone c → c ∉ S)
    (hcame : ∀ c, came' c → c ∉ S) (hnew : new.Corresponds (SameAmong S) new') :
    old.Corresponds (SameAmong S) old' := by
  -- What the edit did is taken back on its own result first; the inverse does the same to the
  -- branch that corresponds to that.
  cases h with
  | insert entered put =>
    cases hback with
    | remove left taken => exact hnew.remove (Branch.remove_of_insert put) taken
  | @remove _ _ _ c _ _ left taken =>
    cases hback with
    | @insert _ _ _ d _ _ entered put =>
      exact hnew.insert (.of_notMem (hgone c left) (hcame d entered))
        (Branch.insert_of_remove taken) put
  | @replace _ _ _ _ c _ _ _ left entered put =>
    cases hback with
    | @replace _ _ _ _ _ d _ _ left' entered' put' =>
      exact hnew.replaceChild (.of_notMem (hgone c left) (hcame d entered'))
        (Branch.replaceChild_invert put) put'
  | move moved =>
    cases hback with
    | move moved' =>
      obtain ⟨source, hsource⟩ := Branch.move_invert moved
      exact hnew.move hsource moved'
  | assign => cases hback with
    | unassign => exact hnew
  | unassign => cases hback with
    | assign => exact hnew
  | insertBlock count entered put =>
    cases hback with
    | removeBlock count' left taken =>
      cases hnew with
      | blockList blocks =>
        exact .blockList (rel_ok (removeItem_rel blocks _) (removeItem_of_insertItem put) taken).2
  | @removeBlock _ _ _ removed _ _ count left taken =>
    cases hback with
    | @insertBlock _ _ _ members _ _ count' entered put =>
      cases hnew with
      | blockList blocks =>
        have hmembers : List.Forall₂ (SameAmong S) removed.members members :=
          forall₂_of_forall (count.trans count'.symm) fun c hc d hd =>
            .of_notMem (hgone c (left c hc)) (hcame d (entered d hd))
        exact .blockList (rel_ok (insertItem_rel blocks ⟨trivial, hmembers⟩ _)
          (insertItem_of_removeItem_self taken) put)
  | splitBlock split =>
    cases hback with
    | mergeBlocks merged =>
      cases hnew with
      | blockList blocks =>
        exact .blockList
          (rel_ok (Blocks.merge_rel blocks _) (Blocks.merge_of_split split).1 merged).2
  | @mergeBlocks _ block position header _ new merged =>
    cases hback with
    | splitBlock split =>
      cases hnew with
      | blockList blocks =>
        have hrel : Option.Rel (List.Forall₂ (Block.Corresponds (fun _ _ => True) (SameAmong S)))
            (Blocks.split block position header _).toOption
            (Blocks.split block position header _).toOption :=
          Blocks.split_rel blocks trivial block position
        rw [split, toOption_ok, rel_some_right] at hrel
        obtain ⟨back, hback, hcorresponds⟩ := hrel
        have hmembers := Blocks.map_members_split_of_merge merged (toOption_eq_some.mp hback)
        rw [Corresponds.blockList_iff, ← hmembers, ← Corresponds.blockList_iff]
        exact .blockList hcorresponds
  | @moveBlock _ block _ delta _ _ moved =>
    cases hback with
    | moveBlock moved' =>
      cases hnew with
      | blockList blocks =>
        rw [shifted_eq (moveItem_eq_ok.mp moved).1] at moved'
        exact .blockList (rel_ok (moveItem_rel blocks _ _) (moveItem_invert moved) moved').2
  | changeReplication set =>
    cases hback with
    | changeReplication set' =>
      rw [Corresponds.blockList_iff, Blocks.map_members_setReplication set',
        ← Blocks.map_members_setReplication set, ← Corresponds.blockList_iff]
      exact hnew
  | setValue => cases hback with
    | setValue => exact hnew

/-- The same of branches that may be missing: an edit makes none and removes none. -/
theorem Edit.Rewrites.rel_back {S : Set Handle} {edit : Edit}
    {gone came gone' came' : Handle → Prop} {old new old' new' : Option Branch}
    (h : Option.Rel (edit.Rewrites gone came) old new)
    (hback : Option.Rel (edit.invert.Rewrites gone' came') new' old') (hgone : ∀ c, gone c → c ∉ S)
    (hcame : ∀ c, came' c → c ∉ S) (hnew : Option.Rel (Corresponds (SameAmong S)) new new') :
    Option.Rel (Corresponds (SameAmong S)) old old' := by
  cases h with
  | none =>
    obtain rfl := rel_none_left.mp hnew
    obtain rfl := rel_none_left.mp hback
    exact .none
  | some hrewrites =>
    obtain ⟨_, rfl, hcorresponds⟩ := rel_some_left.mp hnew
    obtain ⟨_, rfl, hrewrites'⟩ := rel_some_left.mp hback
    exact .some (hrewrites.back hrewrites' hgone hcame hcorresponds)

end TreeEditor
