import TreeEditor.Proofs.Inverse

/-!
# Edits of documents that are the same

An edit that goes through on one document goes through on every document that is the same, with
results that are the same (`Edit.effect_same`). The order in which properties were declared never
matters to an edit: it looks at positions, which correspond, and at recorded nodes, which are
compared up to that order.
-/

namespace TreeEditor.Edit

section Alter

variable {allows : Node → Bool} {P P' Q : Property Node} {edit : Edit}

/-- A step that went through on one side went through on the related side. -/
theorem ok_of_rel {α β : Type} {R : α → β → Prop} {x : Except Refusal α} {y : Except Refusal β}
    {b : β} (h : Option.Rel R x.toOption y.toOption) (hy : y = .ok b) :
    ∃ a, x = .ok a ∧ R a b := by
  rw [hy, toOption_ok, rel_some_right] at h
  obtain ⟨a, ha, hab⟩ := h
  exact ⟨a, toOption_eq_some.mp ha, hab⟩

/-- A slot is in a block of one member alike in corresponding properties. -/
theorem isOnlyMember_eq (h : Q.Corresponds Node.Same P) (slot : Slot) :
    Q.isOnlyMember slot = P.isOnlyMember slot := by
  cases h with
  | @blockList as bs blocks =>
    cases slot with
    | member block position =>
      have hrel := rel_getElem? blocks block
      simp only [Property.isOnlyMember]
      cases hb : bs[block]? with
      | none =>
        rw [hb] at hrel
        cases ha : as[block]? with
        | none => rfl
        | some content =>
          rw [ha] at hrel
          cases hrel
      | some content =>
        rw [hb, rel_some_right] at hrel
        obtain ⟨content', ha, hab⟩ := hrel
        rw [ha]
        simp [hab.members.length_eq]
    | _ => rfl
  | _ => rfl

/-- A member that is removed from a block was under the list of blocks. -/
theorem mem_nodes_of_removeMember {block position : Nat} {blocks blocks' : List (Block Node Node)}
    {held : Node} (h : Blocks.removeMember block position blocks = .ok (held, blocks')) :
    held ∈ (Property.blockList blocks).nodes := by
  obtain ⟨before, content, after, rfl, rfl, hheld, -⟩ := Blocks.removeMember_eq_ok.mp h
  exact mem_nodes_parts.mpr (.inl (.inr (.inr (List.mem_of_getElem? hheld))))

/-- An edit makes corresponding properties of corresponding ones. -/
theorem alter_same (hQ : ∀ node ∈ Q.nodes, node.WellFormed)
    (hP : ∀ node ∈ P.nodes, node.WellFormed) (hedit : edit.WellFormed)
    (hQP : Q.Corresponds Node.Same P) (h : edit.alter allows P = some P') :
    ∃ Q', edit.alter allows Q = some Q' ∧ Q'.Corresponds Node.Same P' := by
  have hrefl : ∀ node ∈ edit.nodes, node.Same node := fun node hnode =>
    Node.same_refl (hedit node hnode)
  have htrans : ∀ a b c : Node, a ∈ Q.nodes → b ∈ P.nodes → c ∈ edit.nodes → a.Same b →
      b.Same c → a.Same c := fun a b c ha hb hc =>
    Node.same_trans (hQ a ha) (hP b hb) (hedit c hc)
  -- Each step has its counterpart by a lemma on the lists; what the edit compared with a recorded
  -- node is compared there with the node in its place, which is the same.
  simp only [alter_eq_some] at h ⊢
  cases h with
  | @insertItem _ position node _ _ admitted done =>
    cases hQP with
    | list nodes =>
      obtain ⟨nodes', hdone, hrel⟩ :=
        ok_of_rel (insertItem_rel nodes (hrefl node (List.mem_singleton_self _)) position) done
      exact ⟨_, .insertItem admitted hdone, .list hrel⟩
  | @insertMember _ block position node _ _ admitted done =>
    cases hQP with
    | blockList blocks =>
      obtain ⟨blocks', hdone, hrel⟩ := ok_of_rel
        (Blocks.insertMember_rel blocks (hrefl node (List.mem_singleton_self _)) block position)
        done
      exact ⟨_, .insertMember admitted hdone, .blockList hrel⟩
  | @removeItem _ position node held _ _ done same =>
    cases hQP with
    | list nodes =>
      obtain ⟨⟨held', nodes'⟩, hdone, hheld, hrel⟩ := ok_of_rel (removeItem_rel nodes position) done
      have hmem := List.mem_of_getElem? (removeItem_eq_ok.mp done).1
      have hmem' := List.mem_of_getElem? (removeItem_eq_ok.mp hdone).1
      exact ⟨_, .removeItem hdone
        (htrans held' held node hmem' hmem (List.mem_singleton_self _) hheld same), .list hrel⟩
  | @removeMember _ block position node held _ _ done others same =>
    rw [← isOnlyMember_eq hQP] at others
    cases hQP with
    | blockList blocks =>
      obtain ⟨⟨held', blocks'⟩, hdone, hheld, hrel⟩ :=
        ok_of_rel (Blocks.removeMember_rel blocks block position) done
      have hmem := mem_nodes_of_removeMember done
      have hmem' := mem_nodes_of_removeMember hdone
      exact ⟨_, .removeMember hdone others
        (htrans held' held node hmem' hmem (List.mem_singleton_self _) hheld same),
        .blockList hrel⟩
  | @replace _ slot before after held _ there same admitted =>
    have hrel := hQP.childAt? slot
    rw [there, rel_some_right] at hrel
    obtain ⟨held', hheld', hheld⟩ := hrel
    exact ⟨_, .replace hheld' (htrans held' held before (Property.mem_nodes_of_childAt? hheld')
      (Property.mem_nodes_of_childAt? there) (by simp [nodes]) hheld same) admitted,
      hQP.replaceChild (hrefl after (by simp [nodes])) slot⟩
  | @moveItem _ position target delta _ _ done =>
    cases hQP with
    | list nodes =>
      obtain ⟨⟨target', nodes'⟩, hdone, -, hrel⟩ :=
        ok_of_rel (moveItem_rel nodes position delta) done
      exact ⟨_, .moveItem hdone, .list hrel⟩
  | @moveMember _ block position target delta _ _ done =>
    cases hQP with
    | blockList blocks =>
      obtain ⟨⟨target', blocks'⟩, hdone, -, hrel⟩ :=
        ok_of_rel (Blocks.moveMember_rel blocks block position delta) done
      exact ⟨_, .moveMember hdone, .blockList hrel⟩
  | @assign _ assigned item before after vacant same admitted =>
    cases hQP with
    | @optional _ item' _ hitem =>
      have hvacant : (assigned && item'.isSome) = false := by
        cases hitem <;> exact vacant
      have hsame : sameItem item' before = true := by
        rw [sameItem_iff] at same ⊢
        cases hitem with
        | none => exact same
        | @some a b hab =>
          rw [rel_some_left] at same
          obtain ⟨recorded, rfl, hrecorded⟩ := same
          exact .some (htrans a b recorded (by simp [Property.nodes]) (by simp [Property.nodes])
            (by simp [nodes]) hab hrecorded)
      exact ⟨_, .assign hvacant hsame admitted,
        .optional true (.some (hrefl after (by simp [nodes])))⟩
  | @unassign _ item held restore same =>
    cases hQP with
    | @optional _ item' _ hitem =>
      cases hitem with
      | @some a _ hab =>
        have hrestore : Option.Rel Node.Same restore restore := sameItem_iff.mp
          (sameItem_refl fun node hnode => hrefl node (List.mem_cons_of_mem _ hnode))
        exact ⟨_, .unassign (htrans a held item (by simp [Property.nodes])
          (by simp [Property.nodes]) (by simp [nodes]) hab same), .optional false hrestore⟩
  | @insertBlock _ block content _ _ inhabited admitted done =>
    cases hQP with
    | blockList blocks =>
      have hcontent : content.Corresponds (Header.Corresponds Node.Same) Node.Same content :=
        Block.same_iff.mp (Block.same_refl hrefl)
      obtain ⟨blocks', hdone, hrel⟩ := ok_of_rel (insertItem_rel blocks hcontent block) done
      exact ⟨_, .insertBlock inhabited admitted hdone, .blockList hrel⟩
  | @removeBlock _ block content held _ _ done same =>
    cases hQP with
    | blockList blocks =>
      obtain ⟨⟨held', blocks'⟩, hdone, hheld, hrel⟩ := ok_of_rel (removeItem_rel blocks block) done
      have hwell : ∀ node ∈ held.header.pattern :: held.header.source :: held.members,
          node.WellFormed := fun node hnode =>
        hP node (mem_nodes_of_block (removeItem_eq_ok.mp done).1 hnode)
      have hwell' : ∀ node ∈ held'.header.pattern :: held'.header.source :: held'.members,
          node.WellFormed := fun node hnode =>
        hQ node (mem_nodes_of_block (removeItem_eq_ok.mp hdone).1 hnode)
      have hsame := Block.same_trans hwell' hwell hedit (Block.same_iff.mpr hheld) same
      exact ⟨_, .removeBlock hdone hsame, .blockList hrel⟩
  | @splitBlock _ block position header _ _ done =>
    cases hQP with
    | blockList blocks =>
      have hheader : header.Corresponds Node.Same header := Header.same_iff.mp
        (Header.same_refl (hrefl _ (by simp [nodes])) (hrefl _ (by simp [nodes])))
      obtain ⟨blocks', hdone, hrel⟩ :=
        ok_of_rel (Blocks.split_rel blocks hheader block position) done
      exact ⟨_, .splitBlock hdone, .blockList hrel⟩
  | @mergeBlocks _ block position header next _ _ done there same =>
    cases hQP with
    | blockList blocks =>
      obtain ⟨⟨position', blocks'⟩, hdone, hposition, hrel⟩ :=
        ok_of_rel (Blocks.merge_rel blocks block) done
      have hnext := rel_getElem? blocks (block + 1)
      rw [there, rel_some_right] at hnext
      obtain ⟨next', there', hsame⟩ := hnext
      have hheader := Header.same_iff.mp same
      have hpattern := htrans _ _ header.pattern (mem_nodes_of_block there' (by simp))
        (mem_nodes_of_block there (by simp)) (by simp [nodes]) hsame.header.pattern hheader.pattern
      have hsource := htrans _ _ header.source (mem_nodes_of_block there' (by simp))
        (mem_nodes_of_block there (by simp)) (by simp [nodes]) hsame.header.source hheader.source
      simp only at hposition
      subst hposition
      exact ⟨_, .mergeBlocks hdone there' (Header.same_iff.mpr
        ⟨hsame.header.replication.trans hheader.replication, hpattern, hsource⟩), .blockList hrel⟩
  | @moveBlock _ block target delta _ _ done =>
    cases hQP with
    | blockList blocks =>
      obtain ⟨⟨target', blocks'⟩, hdone, -, hrel⟩ :=
        ok_of_rel (moveItem_rel blocks block delta) done
      exact ⟨_, .moveBlock hdone, .blockList hrel⟩
  | @changeReplication _ block before after held _ _ there same done =>
    cases hQP with
    | blockList blocks =>
      have hheld := rel_getElem? blocks block
      rw [there, rel_some_right] at hheld
      obtain ⟨held', there', hsame⟩ := hheld
      obtain ⟨blocks', hdone, hrel⟩ := ok_of_rel (Blocks.setReplication_rel blocks
        (fun a b hab => hab.setReplication after) block) done
      exact ⟨_, .changeReplication there' (hsame.header.replication.trans same) hdone,
        .blockList hrel⟩
  | setValue =>
    cases hQP
    exact ⟨_, .setValue, .value _⟩

end Alter

section Effect

variable {grammar : Grammar} {a b b' : Node} {edit : Edit}

/-- Nodes that are the same have corresponding properties for an edit to change. -/
theorem target_same (ha : a.WellFormed) (hb : b.WellFormed) (h : a.Same b) {P : Property Node}
    (htarget : edit.target grammar b = some P) :
    ∃ Q, edit.target grammar a = some Q ∧ Q.Corresponds Node.Same P := by
  cases edit with
  | setValue path name before after =>
    have hname := ((Node.same_iff ha.keys hb.keys).mp h).2 name
    rw [show b.property? name = some P from htarget, rel_some_right] at hname
    exact hname
  | _ => exact Grammar.branch?_same ha hb h htarget

/-- An edit that has an effect on a document has one on every document that is the same, and the
results are the same. -/
theorem effect_same (ha : a.WellFormed) (hb : b.WellFormed) (hedit : edit.WellFormed)
    (h : a.Same b) (heffect : edit.effect grammar b = some b') :
    ∃ a', edit.effect grammar a = some a' ∧ a'.Same b' := by
  obtain ⟨owner, P, P', hreach, htarget, halter, rfl⟩ := effect_eq_some.mp heffect
  obtain ⟨owner', hreach', hsame⟩ := Grammar.reach_same ha hb h hreach
  have howner := Grammar.wellFormed_reach hb hreach
  have howner' := Grammar.wellFormed_reach ha hreach'
  obtain ⟨Q, htarget', hQP⟩ := target_same howner' howner hsame htarget
  have hQ := property?_target howner' htarget'
  have hP := property?_target howner htarget
  obtain ⟨Q', halter', hQP'⟩ := alter_same
    (fun node hnode => Node.Everywhere.property howner' hQ hnode)
    (fun node hnode => Node.Everywhere.property howner hP hnode) hedit hQP halter
  rw [← hsame.kind_eq] at halter'
  exact ⟨_, effect_eq_some.mpr ⟨owner', Q, Q', hreach', htarget', halter', rfl⟩,
    Grammar.put_same ha hb h hreach' hreach (Node.Same.set howner' howner hsame hQP' _)⟩

end Effect

end TreeEditor.Edit
