import TreeEditor.Proofs.Change
import TreeEditor.Proofs.Locus

/-!
# The conditions of an edit

An edit asks first for the state of the owner and for its branch. Where the document has the owner
and the property, there is a `Locus` for the rest of the edit; elsewhere the edit is refused
(`Editor.locus_answers`). What is asked after that is asked of the nodes at the locus.
-/

namespace TreeEditor

namespace Editor

variable {editor : Editor} {ν : Handle → Option Node}

/-- The state of the owner of an edit is found where the document has a node for it. -/
theorem readyOwner_answers (hmirrors : editor.Mirrors ν) (path : Path) :
    Answers (editor.readyOwner path) (editor.grammar.reach editor.document path) fun h node =>
      editor.store.Climbs h path ∧ ν h = some node := by
  have hfound : ∀ h, editor.store.Climbs h path → ∃ state, editor.store.expect h = .ok state ∧
      (state.stage = .ready ↔ (editor.grammar.reach editor.document path).isSome) := by
    intro h hclimbs
    obtain ⟨state, hstate⟩ := hclimbs.live
    have hsettled := hmirrors.standing.settled h state hstate (Set.notMem_empty h)
    rw [← hmirrors.standing.label_of_climbs hmirrors.document hclimbs]
    exact ⟨state, Store.expect_eq_ok.mpr hstate, hsettled.stage_iff⟩
  unfold readyOwner
  -- A path may lead to a vacant state, which the document has no node for.
  cases hreach : editor.grammar.reach editor.document path with
  | none =>
    cases hresolve : editor.resolve path with
    | error reason => exact .refused reason
    | ok h =>
      obtain ⟨state, hexpect, hstage⟩ := hfound h ((resolve_eq_ok hmirrors).mp hresolve)
      rw [hreach] at hstage
      rw [orRefuse_ok, ok_bind, hexpect, ok_bind, if_neg (by simpa using hstage)]
      exact .refused _
  | some node =>
    obtain ⟨h, hclimbs, hlabel⟩ := hmirrors.standing.climbs_of_reach hmirrors.document hreach
    obtain ⟨state, hexpect, hstage⟩ := hfound h hclimbs
    rw [hreach] at hstage
    rw [(resolve_eq_ok hmirrors).mpr hclimbs, orRefuse_ok, ok_bind, hexpect, ok_bind,
      if_pos (hstage.mpr rfl)]
    exact .granted ⟨hclimbs, hlabel⟩

end Editor

/-- Announcing an event changes nothing of how the states have turned over. -/
theorem Store.Turns.announce {edit : Edit} {σ σ' : Store} {ν ν' : Handle → Option Node}
    (h : σ.Turns edit ν σ' ν') (event : Event) : σ.Turns edit ν (σ'.announce event) ν' := by
  refine ⟨h.gone, fun g hlive => ?_, h.labels, h.places, h.revises.imp fun _ hrevises =>
    ⟨hrevises.climbs, hrevises.site, hrevises.kept⟩⟩
  refine (h.came g hlive).trans (exists_congr fun path => and_congr_left fun _ => ?_)
  exact (Store.climbs_announce event).symm

/-- The states have become what an edit makes of them, and further announcements change nothing of
that. -/
theorem Locus.Becomes.announce {editor : Editor} {ν : Handle → Option Node} {address : BranchPath}
    {locus : Locus editor ν address} {edit : Edit} {P' : Property Node} {σ' : Store}
    (h : locus.Becomes edit P' σ') (event : Event) :
    locus.Becomes edit P' (σ'.announce event) := by
  obtain ⟨ν', hσ', hroot, hturns⟩ := h
  exact ⟨ν', hσ'.announce event, hroot, hturns.announce event⟩

/-- What an edit of a branch leaves of an editor: the document is changed at the locus, and the
states have become what the edit makes of them. -/
def Locus.Commits {editor : Editor} {ν : Handle → Option Node} {address : BranchPath}
    (locus : Locus editor ν address) (edit : Edit) (editor' : Editor) (P' : Property Node) : Prop :=
  ∃ σ', editor' = { editor with
      document := editor.document.put address.owner (locus.node.set address.property P')
      store := σ' } ∧ locus.Becomes edit P' σ'

namespace Editor

variable {editor : Editor} {ν : Handle → Option Node} {address : BranchPath}

/-- What an edit leaves of an editor: another document and states that stand for it, which have
turned over as the edit says. -/
def Makes (editor : Editor) (ν : Handle → Option Node) (edit : Edit) (editor' : Editor)
    (document : Node) : Prop :=
  ∃ σ' ν', editor' = { editor with document, store := σ' } ∧
    Standing editor.grammar editor.root σ' ν' ∅ ∅ ∧ ν' editor.root = some document ∧
      editor.store.Turns edit ν σ' ν'

/-- An edit of a branch is answered when it is answered at every locus. -/
theorem locus_answers (hmirrors : editor.Mirrors ν) (address : BranchPath) {edit : Edit}
    (hsite : edit.site = address)
    (htarget : ∀ owner, edit.target editor.grammar owner =
      editor.grammar.branch? owner address.property)
    {f : Handle → Branch → Except Failure Editor}
    (h : ∀ locus : Locus editor ν address, Answers (f locus.owner locus.branch)
      (edit.alter (Edit.admits editor.grammar locus.node.kind address.property) locus.property)
      (locus.Commits edit)) :
    Answers (editor.readyOwner address.owner >>= fun owner =>
        orRefuse (editor.store.branch owner address.property) >>= fun branch => f owner branch)
      (edit.effect editor.grammar editor.document) (editor.Makes ν edit) := by
  subst hsite
  unfold Edit.effect
  refine (readyOwner_answers hmirrors edit.site.owner).bind
    fun owner node _ hreach ⟨hclimbs, hlabel⟩ => ?_
  rw [htarget]
  have hrel := hmirrors.standing.rel_branch? hclimbs.live hlabel edit.site.property
  rw [← Store.toOption_branch] at hrel
  refine (Answers.ofRel hrel).bind fun branch P hheld hP _ => ?_
  have hlocus := h ⟨hmirrors, owner, node, P, branch, hclimbs, hlabel, hP,
    Store.branch_eq_ok.mp (orRefuse_eq_ok.mp hheld)⟩
  dsimp only at hlocus
  cases halter : edit.alter (Edit.admits editor.grammar node.kind edit.site.property) P with
  | none =>
    rw [halter] at hlocus
    exact hlocus
  | some P' =>
    rw [halter] at hlocus
    obtain ⟨editor', heditor', σ', rfl, ν', hσ', hroot, hturns⟩ := hlocus
    exact ⟨_, heditor', σ', ν', rfl, hσ', hroot, hturns⟩

/-- An edit of an optional child is answered when it is answered at every locus of one. -/
theorem optional_answers (hmirrors : editor.Mirrors ν) (address : BranchPath) {edit : Edit}
    (hsite : edit.site = address) (htarget : ∀ owner, edit.target editor.grammar owner =
      editor.grammar.branch? owner address.property)
    (hnone : ∀ allows P, P.kind ≠ .optional → edit.alter allows P = none)
    {f : Handle → Handle → Except Failure Editor}
    (h : ∀ (locus : Locus editor ν address) assigned item c,
      locus.property = .optional assigned item → locus.branch = .optional c →
      (ν c = if assigned then item else none) → Answers (f locus.owner c)
        (edit.alter (Edit.admits editor.grammar locus.node.kind address.property)
          (.optional assigned item)) (locus.Commits edit)) :
    Answers (editor.readyOwner address.owner >>= fun owner =>
        orRefuse (editor.optionalChild owner address.property) >>= fun c => f owner c)
      (edit.effect editor.grammar editor.document) (editor.Makes ν edit) := by
  unfold optionalChild
  simp only [orRefuse_bind, bind_assoc]
  refine locus_answers hmirrors address hsite htarget fun locus => ?_
  have hreflects := locus.reflects
  have hkind := hreflects.kind_eq
  generalize hP : locus.property = P at hreflects hkind
  generalize hbranch : locus.branch = branch at hreflects hkind
  cases hreflects with
  | optional label => exact h locus _ _ _ hP hbranch label
  | _ =>
    rw [hnone _ _ (by rw [hkind]; nofun)]
    exact .refused _

/-- An edit of a list of blocks is answered when it is answered at every locus of one. -/
theorem blocks_answers (hmirrors : editor.Mirrors ν) (address : BranchPath) {edit : Edit}
    (hsite : edit.site = address) (htarget : ∀ owner, edit.target editor.grammar owner =
      editor.grammar.branch? owner address.property)
    (hnone : ∀ allows P, P.kind ≠ .blockList → edit.alter allows P = none)
    {f : Handle → List (Block Node Handle) → Except Failure Editor}
    (h : ∀ (locus : Locus editor ν address) blocks states,
      locus.property = .blockList blocks → locus.branch = .blockList states →
      List.Forall₂ (Block.Corresponds Eq (Labels ν)) blocks states →
      Answers (f locus.owner states)
        (edit.alter (Edit.admits editor.grammar locus.node.kind address.property)
          (.blockList blocks)) (locus.Commits edit)) :
    Answers (editor.readyOwner address.owner >>= fun owner =>
        orRefuse (editor.store.blocks owner address.property) >>= fun states => f owner states)
      (edit.effect editor.grammar editor.document) (editor.Makes ν edit) := by
  unfold Store.blocks
  simp only [orRefuse_bind, bind_assoc]
  refine locus_answers hmirrors address hsite htarget fun locus => ?_
  have hreflects := locus.reflects
  have hkind := hreflects.kind_eq
  generalize hP : locus.property = P at hreflects hkind
  generalize hbranch : locus.branch = branch at hreflects hkind
  cases hreflects with
  | blockList labels => exact h locus _ _ hP hbranch labels
  | _ =>
    rw [hnone _ _ (by rw [hkind]; nofun)]
    exact .refused _

end Editor

namespace Locus

variable {editor : Editor} {ν : Handle → Option Node} {address : BranchPath}

/-- What stands in a slot has a state, which is settled. -/
theorem exists_state (locus : Locus editor ν address) (slot : Slot) {child : Handle}
    (hslot : locus.branch.childAt? slot = some child) :
    ∃ state, editor.store.get? child = some state ∧
      state.place = .within locus.owner address.property slot ∧
      Settled editor.grammar ν state (ν child) := by
  obtain ⟨state, hstate, hplace⟩ := Store.place?_eq_some.mp (locus.stands_iff.mpr hslot)
  exact ⟨state, hstate, hplace,
    locus.mirrors.standing.settled child state hstate (Set.notMem_empty child)⟩

/-- The document has the node of the owner. -/
theorem nodeAt_eq_ok (locus : Locus editor ν address) :
    editor.nodeAt address.owner = .ok locus.node :=
  Grammar.descend_of_reach locus.mirrors.wellFormed locus.reach

/-- A node may stand in the property when the grammar admits it. -/
theorem checkChild_eq_ok (locus : Locus editor ν address) (node : Node) :
    editor.checkChild address node = .ok () ↔
      Edit.admits editor.grammar locus.node.kind address.property node = true := by
  rw [Edit.admits_iff, Editor.checkChild, locus.nodeAt_eq_ok, ok_bind, bind_eq_ok]
  simp only [refuseShape_eq_ok]
  exact ⟨fun ⟨_, haccepted, hvalid⟩ => ⟨haccepted, hvalid⟩,
    fun hadmits => ⟨(), hadmits.accepted, hadmits.valid⟩⟩

/-- The node in a slot is the recorded one when the two are the same. -/
theorem checkNode_eq_ok (locus : Locus editor ν address) {slot : Slot} {held : Node}
    (hheld : locus.property.childAt? slot = some held) (node : Node) :
    editor.checkNode (address.child slot) node = .ok () ↔ held.same node = true := by
  have hstep : locus.node.step ⟨address.property, slot⟩ = .ok held :=
    Node.step_eq_ok.mpr ⟨_, locus.property?, hheld⟩
  have hnodeAt : editor.nodeAt (address.child slot) = .ok held := by
    rw [Editor.nodeAt,
      show address.child slot = address.owner ++ [⟨address.property, slot⟩] from rfl,
      Node.descend_append, ← Editor.nodeAt, locus.nodeAt_eq_ok, ok_bind, Node.descend, hstep]
    rfl
  rw [Editor.checkNode, hnodeAt, ok_bind]
  cases held.same node <;> simp

/-- The slot of the only member of a block is not emptied. -/
theorem checkNotLast_eq_ok (locus : Locus editor ν address) (slot : Slot) :
    Editor.checkNotLast locus.branch slot = .ok () ↔
      locus.property.isOnlyMember slot = false := by
  cases slot with
  | member block position =>
    rw [Editor.checkNotLast, locus.reflects.isOnlyMember_eq]
    cases locus.property.isOnlyMember (.member block position) <;> simp
  | _ => cases hproperty : locus.property <;> simp [Editor.checkNotLast, Property.isOnlyMember]

/-- The blocks that can be read are those of the document. -/
theorem blockAt_eq_ok (locus : Locus editor ν address) {blocks : List (Block Node Node)}
    (hblocks : locus.property = .blockList blocks) {block : Nat} {held : Block Node Node} :
    editor.blockAt address block = .ok held ↔ blocks[block]? = some held := by
  have hread : locus.node.blockList address.property = .ok blocks := by
    rw [Node.blockList, Node.require_eq_ok locus.property?, hblocks]
    rfl
  rw [Editor.blockAt, Editor.blocksAt, locus.nodeAt_eq_ok, ok_bind, hread, refuseShape_ok,
    orRefuse_ok, ok_bind, orBreak_eq_ok, Blocks.blockAt_eq_ok]

/-- Changing the node of the owner changes the document at the locus. -/
theorem changeDocument_eq_ok (locus : Locus editor ν address) {new : Node}
    {change : Node → Except Refusal Node} (hchange : change locus.node = .ok new) :
    editor.changeDocument address.owner change = .ok (editor.document.put address.owner new) := by
  rw [Editor.changeDocument, Node.modifyAt_eq_ok locus.nodeAt_eq_ok hchange, orBreak_ok]

/-- Changing the node in a slot changes the document at the locus. -/
theorem changeDocument_child (locus : Locus editor ν address) {slot : Slot} {held : Node}
    (hheld : locus.property.childAt? slot = some held) (after : Node) :
    editor.changeDocument (address.child slot) (fun _ => .ok after) =
      .ok (editor.document.put address.owner
        (locus.node.set address.property (locus.property.replaceChild slot after))) := by
  have hstep : locus.node.step ⟨address.property, slot⟩ = .ok held :=
    Node.step_eq_ok.mpr ⟨_, locus.property?, hheld⟩
  have hreach : editor.document.descend (address.child slot) = .ok held := by
    rw [show address.child slot = address.owner ++ [⟨address.property, slot⟩] from rfl,
      Node.descend_append, Grammar.descend_of_reach locus.mirrors.wellFormed locus.reach, ok_bind,
      Node.descend, hstep]
    rfl
  have hmodify : editor.document.modifyAt (fun _ => .ok after) (address.child slot) =
      .ok (editor.document.put (address.child slot) after) := Node.modifyAt_eq_ok hreach rfl
  rw [Editor.changeDocument, hmodify, orBreak_ok,
    show address.child slot = address.owner ++ [⟨address.property, slot⟩] from rfl,
    Grammar.put_append locus.mirrors.wellFormed locus.reach, Node.put_cons hstep,
    Node.replaceChild_eq _ locus.property?]
  rfl

end Locus

end TreeEditor
