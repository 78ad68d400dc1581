import TreeEditor.Proofs.Truth

/-!
# Commands report what they do

Edits of blocks tell the truth as those of one child do: the members of a block that is inserted are
announced one by one at the positions that they keep, and those of a block that is removed at the
positions that they had. With them all edits are reported (`Editor.reports_apply`), and so is every
command that is carried out (`Editor.reports_of_perform`); recording its edit announces at most that
a state is announced again.
-/

namespace TreeEditor

namespace Blocks

variable {α μ : Type} {blocks blocks' : List (Block α μ)} {block position : Nat} {member : μ}

/-- Inserting a member leaves the number of blocks. -/
theorem length_insertMember (h : insertMember block position member blocks = .ok blocks') :
    blocks'.length = blocks.length := by
  obtain ⟨before, content, after, rfl, -, -, rfl⟩ := insertMember_eq_ok.mp h
  simp

end Blocks

namespace Editor

variable {editor next : Editor} {ν ν' : Handle → Option Node} {branch : BranchPath}

/-! ## Edits of blocks -/

/-- An event tells of a life, or that one of some members was inserted where it stands. -/
def TellsMembers (owner : Handle) (property : String) (block : Nat) (members fresh : List Handle)
    (event : Event) : Prop :=
  event.OfLife ∨ ∃ position, ∃ c ∈ fresh, members[position]? = some c ∧
    event = .inserted (.within owner property (.member block position)) c

/-- The members of a block are made one after the other, behind those that the block has. Each is
new and is announced at the position that it keeps. -/
theorem gains_growNodes (hgrammar : editor.grammar.Distinct) {owner : Handle} {property : String}
    {block : Nat} {nodes : List Node} (hnodes : ∀ node ∈ nodes, node.WellFormed)
    {store store' : Store} (htidy : store.Tidy) {blocks : List (Block Node Handle)}
    (hbranch : store.branch? owner property = some (.blockList blocks))
    {content : Block Node Handle} (hcontent : blocks[block]? = some content)
    (h : editor.growNodes owner property block (nodes.zipIdx content.members.length) store =
      .ok store') :
    ∃ handles, store'.branch? owner property = some (.blockList
        (Blocks.setMembers block (content.members ++ handles) blocks)) ∧
      (∀ c ∈ handles, ¬ store.Live c) ∧
      store.Adds (TellsMembers owner property block (content.members ++ handles) handles)
        store' := by
  -- By induction on the nodes: the block that the rest is made for has the first member already.
  induction nodes generalizing store blocks content with
  | nil =>
    cases h
    refine ⟨[], ?_, nofun, .of_eq rfl⟩
    rw [hbranch, List.append_nil, Blocks.setMembers_self hcontent]
  | cons node rest ih =>
    rw [List.zipIdx_cons, growNodes] at h
    dsimp only at h
    cases hallocate : store.allocate
      (.within owner property (.member block content.members.length)) with
    | mk c σ₁ =>
      rw [hallocate] at h
      obtain ⟨σ₂, hmodify, h⟩ := bind_eq_ok.mp h
      obtain ⟨σ₃, hsettle, hrest⟩ := bind_eq_ok.mp h
      obtain ⟨held, blocks', hheld, hinsert, rfl⟩ := Store.modifyBlocks_eq_ok.mp hmodify
      have hcount : (Branch.blockList blocks').blockCount = (Branch.blockList held).blockCount :=
        congrArg Nat.cast (Blocks.length_insertMember hinsert)
      have hgains := Store.gains_settle
        (Grammar.told_growth hgrammar (hnodes node List.mem_cons_self))
        (Grammar.births_growth (hnodes node List.mem_cons_self)) htidy hallocate hheld hcount
        ⟨Store.accounts_enroll _ _, fun _ => rfl⟩ hsettle
      have hsame := hgains.held
      rw [hbranch] at hsame
      cases hsame
      rw [Blocks.insertMember_length c hcontent] at hinsert
      cases hinsert
      have hcontent' : (Blocks.setMembers block (content.members ++ [c]) blocks)[block]? =
          some { content with members := content.members ++ [c] } := by
        rw [Blocks.getElem?_setMembers, if_pos rfl, hcontent]
        rfl
      have htidy' : (σ₃.announce (.inserted (.within owner property
          (.member block content.members.length)) c)).Tidy := hgains.tidy.announce _
      obtain ⟨handles, hleft, hfresh, hadds⟩ := ih
        (fun other hother => hnodes other (List.mem_cons_of_mem _ hother)) htidy' hgains.left
        hcontent' (by simpa using hrest)
      have hmembers : content.members ++ [c] ++ handles = content.members ++ c :: handles := by simp
      dsimp only at hleft hadds
      rw [hmembers] at hleft hadds
      rw [Blocks.setMembers_setMembers] at hleft
      refine ⟨c :: handles, hleft, fun d hd => ?_, ?_⟩
      · rcases List.mem_cons.mp hd with rfl | hd
        · exact hgains.fresh
        · exact fun hlive => hfresh d hd (hgains.live d hlive)
      · have hfirst : store.Adds (TellsMembers owner property block
            (content.members ++ c :: handles) (c :: handles))
            (σ₃.announce (.inserted _ c)) :=
          (hgains.adds.mono fun _ => Or.inl).announce
            (.inr ⟨content.members.length, c, List.mem_cons_self, by simp, rfl⟩)
        refine hfirst.trans (hadds.mono fun event hevent => hevent.imp_right ?_)
        rintro ⟨position, d, hd, hat, heq⟩
        exact ⟨position, d, List.mem_cons_of_mem _ hd, hat, heq⟩

/-- A split of a block is reported. -/
theorem Enacts.reports_splitBlock {block position : Nat} {header : Header Node}
    (h : editor.Enacts (.splitBlock branch block position header) next) :
    Reports editor next := by
  cases h with
  | splitBlock owns held split changed reindexed =>
    have hleft := Store.branch?_rearrange held reindexed
    obtain ⟨before, content, after, rfl, rfl, -, -, rfl⟩ := Blocks.split_eq_ok.mp split
    refine .of_adds rfl rfl (Store.Adds.announce (Store.silent_reindex reindexed).adds trivial)
      ⟨content, header, ?_, ?_, ?_⟩
    · rw [Store.block?_eq held, Blocks.getElem?_parts]
    · exact (Store.block?_eq hleft _).trans (Blocks.getElem?_parts _ _ _)
    · exact (Store.block?_eq hleft _).trans (by simp)

/-- Joining two blocks is reported. -/
theorem Enacts.reports_mergeBlocks {block position : Nat} {header : Header Node}
    (h : editor.Enacts (.mergeBlocks branch block position header) next) :
    Reports editor next := by
  cases h with
  | mergeBlocks owns held merged changed reindexed =>
    have hleft := Store.branch?_rearrange held reindexed
    obtain ⟨before, content, following, after, rfl, rfl, rfl, rfl⟩ := Blocks.merge_eq_ok.mp merged
    -- The block that follows is announced to go away before the two are told to be one.
    refine .of_adds rfl rfl (Store.Adds.announce (Store.silent_reindex reindexed).adds ⟨?_, ?_⟩)
      ⟨content, following, ?_, ?_, rfl, ?_⟩
    · rw [Store.block?_eq held]
      simp
    · rw [Store.blockCount_eq held]
      refine (Store.blockCount_eq hleft).trans_lt ?_
      simp
    · rw [Store.block?_eq held, Blocks.getElem?_parts]
    · rw [Store.block?_eq held]
      simp
    · exact (Store.block?_eq hleft _).trans (Blocks.getElem?_parts _ _ _)

/-- A move of a block is reported. -/
theorem Enacts.reports_moveBlock {block : Nat} {delta : Int}
    (h : editor.Enacts (.moveBlock branch block delta) next) : Reports editor next := by
  cases h with
  | @moveBlock _ _ target _ _ _ _ _ _ owns held moved changed reindexed =>
    have hleft := Store.branch?_rearrange held reindexed
    obtain ⟨content, hsource, htarget⟩ := getElem?_moveItem moved
    exact .of_adds rfl rfl (Store.silent_reindex reindexed).adds
      ⟨content, (Store.block?_eq held block).trans hsource,
        (Store.block?_eq hleft target).trans htarget⟩

/-- A change of replication is reported. -/
theorem Enacts.reports_changeReplication {block : Nat} {before after : Replication}
    (h : editor.Enacts (.changeReplication branch block before after) next) :
    Reports editor next := by
  cases h with
  | @changeReplication _ _ _ _ _ _ _ new owns held set changed =>
    have hleft := Store.branch?_setBranch (Store.live_of_branch? held) branch.property
      (.blockList new)
    obtain ⟨start, content, rest, rfl, rfl, rfl⟩ := Blocks.setReplication_eq_ok.mp set
    refine .of_adds rfl rfl (.of_eq rfl) ⟨content, ?_, ?_⟩
    · rw [Store.block?_eq held, Blocks.getElem?_parts]
    · exact (Store.block?_eq hleft _).trans (Blocks.getElem?_parts _ _ _)

section

variable (hmirrors : editor.Mirrors ν) (hmirrors' : next.Mirrors ν')

include hmirrors hmirrors'

/-- An insertion of a block is reported. -/
theorem Enacts.reports_insertBlock {block : Nat} {content : Block Node Node}
    (hmembers : ∀ node ∈ content.members, node.WellFormed)
    (h : editor.Enacts (.insertBlock branch block content) next) : Reports editor next := by
  have htidy := Sound.tidy ⟨ν, hmirrors⟩
  cases h with
  | @insertBlock _ _ _ _ owner old _ σ₁ σ₂ owns changed held put reindexed grown =>
    obtain ⟨hle, rfl⟩ := insertItem_eq_ok.mp put
    have hsilent := Store.silent_reindex reindexed
    have htidy₁ := (Store.accounts_rearrange held reindexed).tidy htidy
    have htidy₂ : (σ₁.announce (.blockCreated ⟨owner, branch.property⟩ block)).Tidy :=
      htidy₁.announce _
    have hempty := Store.branch?_rearrange held reindexed
    have hcontent : (old.insertIdx block ⟨content.header, []⟩)[block]? =
        some ⟨content.header, []⟩ := by
      rw [List.getElem?_insertIdx_self, if_pos hle]
    -- The block is there without members before they are made.
    obtain ⟨handles, hleft, hfresh, hadds⟩ := gains_growNodes hmirrors.distinct hmembers
      htidy₂ hempty hcontent grown
    have hblock : (Blocks.setMembers block handles
        (old.insertIdx block ⟨content.header, []⟩))[block]? = some ⟨content.header, handles⟩ := by
      rw [Blocks.getElem?_setMembers, if_pos rfl, hcontent]
      rfl
    have hnew : ∀ c ∈ handles, ¬ editor.store.Live c := fun c hc hlive => hfresh c hc
      ((hsilent.live c).mpr ((Store.live_modify owner c _).mpr hlive))
    refine .of_adds rfl rfl ((Store.Adds.announce hsilent.adds trivial).trans (hadds.mono ?_))
      ⟨_, (Store.block?_eq hleft block).trans hblock, hnew⟩
    rintro event (hlife | ⟨position, c, hc, hat, rfl⟩)
    · exact hlife.truthful _ _
    · refine ⟨hnew c hc, (stateAt?_within hmirrors').mpr ⟨_, hleft, ?_⟩⟩
      rw [List.nil_append, Branch.childAt?, hblock]
      exact hat

/-- A removal of a block is reported. -/
theorem Enacts.reports_removeBlock {block : Nat} {content : Block Node Node}
    (hturns : editor.store.Turns (.removeBlock branch block content) ν next.store ν')
    (h : editor.Enacts (.removeBlock branch block content) next) : Reports editor next := by
  cases h with
  | @removeBlock _ _ _ _ _ old _ removed σ₁ σ₂ owns held taken changed reindexed destroyed =>
    obtain ⟨hthere, rfl⟩ := removeItem_eq_ok.mp taken
    obtain ⟨locus, rfl, hbranch⟩ := exists_locus hmirrors owns (Store.branch_eq_ok.mpr held)
    have hslots : ∀ member position, removed.members[position]? = some member →
        locus.branch.childAt? (.member block position) = some member :=
      fun member position hmember => by
        rw [hbranch, Branch.childAt?, hthere]
        exact hmember
    have hdiscarded : locus.Discarded (.removeBlock branch block content) removed.members :=
      fun root hroot => by
        obtain ⟨position, hposition⟩ := List.mem_iff_getElem?.mp hroot
        exact ⟨_, hslots root position hposition, fun _ hprefix => ⟨position, hprefix⟩⟩
    have hsilent := Store.silent_reindex reindexed
    have hremovable := ((hdiscarded.removable hturns).setBranch hdiscarded.owner_notMem
      branch.property (.blockList (old.eraseIdx block))).congr fun g _ => hsilent.inners g
    have hmem : ∀ member ∈ removed.members.zipIdx,
        member.1 ∈ editor.store.below removed.members := fun member hmember =>
      ⟨member.1, List.fst_mem_of_mem_zipIdx hmember, .refl⟩
    -- No cell is used again, whatever is announced.
    have hgenerations : σ₂.arena.generations = editor.store.arena.generations :=
      (Store.spares_destroyMembers (p := fun _ => True)
        { hremovable with
          destroyed := fun _ _ => trivial
          block := fun _ _ _ _ _ _ _ _ _ _ => trivial } hmem
        (fun _ _ => trivial) destroyed).generations.trans
          ((Store.generations_reindex reindexed).trans (Arena.generations_modify locus.owner _))
    have hspares := Store.spares_destroyMembers hremovable hmem (fun member hmember => by
      obtain ⟨member, position⟩ := member
      have hslot := hslots member position (List.mem_zipIdx_iff_getElem?.mp hmember)
      have hlive := Store.live_of_place? (locus.stands_iff.mpr hslot)
      have hgone := hdiscarded.gone hturns (hmem _ hmember) hlive
      exact ⟨(stateAt?_within hmirrors).mpr ⟨_, locus.held, hslot⟩, ⟨hlive, hgone⟩,
        Store.isStale_of_gone hgenerations hlive hgone⟩) destroyed
    have hleft : σ₂.branch? locus.owner branch.property =
        some (.blockList (old.eraseIdx block)) := by
      rw [← Store.branch?_rearrange held reindexed, Store.branch?, Store.branch?,
        hspares.kept _ hdiscarded.owner_notMem]
    obtain ⟨hlt, -⟩ := List.getElem?_eq_some_iff.mp hthere
    refine .of_adds rfl rfl (hsilent.adds.trans hspares.adds) ⟨?_, ?_⟩
    · rw [Store.block?_eq held, hthere]
      rfl
    · rw [Store.blockCount_eq held]
      refine (Store.blockCount_eq hleft).trans_lt ?_
      rw [List.length_eraseIdx_of_lt hlt]
      omega

/-! ## All edits -/

/-- A change of a value is reported. -/
theorem Enacts.reports_setValue {owner : Path} {property : String} {before after : Leaf}
    (heffect : (Edit.setValue owner property before after).effect editor.grammar editor.document =
      some next.document)
    (h : editor.Enacts (.setValue owner property before after) next) : Reports editor next := by
  obtain ⟨node, P, P', hreach, htarget, halter, hdocument⟩ := Edit.effect_eq_some.mp heffect
  cases Edit.alter_eq_some.mp halter
  cases h with
  | @setValue _ _ _ _ _ handle owns changed =>
    obtain ⟨node', hreach', hclimbs, hlabel⟩ := (readyOwner_answers hmirrors owner).of_eq_ok owns
    obtain rfl : node = node' := Option.some.inj (hreach.symm.trans hreach')
    -- The states stand where they stood, and the document has the changed node there.
    have hclimbs' : (editor.store.announce (.valueChanged handle property)).Climbs handle owner :=
      (Store.climbs_announce _).mpr hclimbs
    have hlabel' := hmirrors'.standing.label_of_climbs hmirrors'.document hclimbs'
    refine .of_adds rfl rfl (.of_eq rfl) ⟨node, before, after, ?_, htarget, ?_⟩
    · rw [node?_eq hmirrors hclimbs.live, hlabel]
    · rw [node?_eq hmirrors' hclimbs'.live, hlabel', hdocument]
      exact Grammar.reach_put hmirrors.wellFormed hreach

end

/-- What an edit announces when it is made is true. -/
theorem reports_apply (hsound : editor.Sound) {edit : Edit} (hedit : edit.WellFormed)
    (h : editor.apply edit = .ok next) : Reports editor next := by
  obtain ⟨ν, hmirrors⟩ := hsound
  obtain ⟨ν', hmirrors', hturns, heffect, -⟩ := turns_of_apply hmirrors hedit h
  have steps := enacts_of_apply h
  -- What is announced differs from edit to edit; the steps of the edit are all that is needed for
  -- it.
  cases edit with
  | insert branch slot node =>
    exact steps.reports_insert hmirrors hmirrors' (hedit node (List.mem_singleton_self node))
  | remove => exact steps.reports_remove hmirrors hmirrors' hturns
  | replace branch slot before after =>
    exact steps.reports_replace hmirrors hmirrors' (hedit after (by simp [Edit.nodes])) hturns
  | move => exact steps.reports_move hmirrors hmirrors'
  | assign branch before after =>
    exact steps.reports_assign hmirrors hmirrors' (hedit after (by simp [Edit.nodes]))
  | unassign => exact steps.reports_unassign hmirrors hmirrors' hturns
  | insertBlock branch block content =>
    exact steps.reports_insertBlock hmirrors hmirrors' fun node hnode =>
      hedit node (List.mem_cons_of_mem _ (List.mem_cons_of_mem _ hnode))
  | removeBlock => exact steps.reports_removeBlock hmirrors hmirrors' hturns
  | splitBlock => exact steps.reports_splitBlock
  | mergeBlocks => exact steps.reports_mergeBlocks
  | moveBlock => exact steps.reports_moveBlock
  | changeReplication => exact steps.reports_changeReplication
  | setValue => exact steps.reports_setValue hmirrors hmirrors' heffect

/-! ## Commands -/

/-- The node of a state is a matter of neither the journal nor the history. -/
theorem node?_withRecord (next : Editor) (journal : Array Event) (history : History) (h : Handle) :
    ({ next with store := { next.store with journal }, history } : Editor).node? h =
      next.node? h := by
  have hpath : ∀ generations h,
      ({ next with store := { next.store with journal }, history } : Editor).pathWithin
        generations h = next.pathWithin generations h := fun generations => by
    induction generations with
    | zero => exact fun _ => rfl
    | succ generations ih => exact fun h => by simp only [pathWithin, ih]; rfl
  rw [node?, nodeOf, pathOf, hpath]
  rfl

/-- What an event says is a matter of neither the journal nor the history. -/
theorem truthful_withRecord {event : Event} (h : event.Truthful editor next)
    (journal : Array Event) (history : History) :
    event.Truthful editor { next with store := { next.store with journal }, history } := by
  cases event with
  | assigned place g | unassigned place g | valueChanged g property =>
    simp only [Event.Truthful, node?_withRecord] at h ⊢
    exact h
  | _ => exact h

/-- Recording an edit announces at most that a state is announced again. -/
theorem recordEdit_adds (hsound : next.Sound) (edit : Edit) (refresh : Option Path) :
    ∃ journal history, next.recordEdit edit refresh =
      { next with store := { next.store with journal }, history } ∧
        next.store.Adds (fun event => ∃ h, event = .refreshed h ∧ next.store.Live h)
          { next.store with journal } := by
  unfold recordEdit
  split
  · exact ⟨next.store.journal, _, rfl, .of_eq rfl⟩
  · cases refresh with
    | none => exact ⟨next.store.journal, _, rfl, .of_eq rfl⟩
    | some path =>
      dsimp only [refreshAt]
      cases hresolve : next.resolve path with
      | error reason => exact ⟨next.store.journal, _, rfl, .of_eq rfl⟩
      | ok state =>
        obtain ⟨ν, hmirrors⟩ := hsound
        exact ⟨_, _, rfl, .announce (.of_eq rfl)
          ⟨state, rfl, ((resolve_eq_ok hmirrors).mp hresolve).live⟩⟩

/-- A command that is carried out makes the edit that was planned and records it. -/
theorem committed_of_perform {after : Editor} {command : Command} {reply : Reply}
    (hsteady : editor.Steady) (hcommand : ∀ node ∈ command.nodes, node.WellFormed)
    (hperform : editor.perform command = (.ok reply, after)) :
    ∃ edit refresh next, editor.plan command = .ok (edit, refresh) ∧ edit.WellFormed ∧
      editor.apply edit = .ok next ∧ after = next.recordEdit edit refresh := by
  have turn := perform_turn hsteady hcommand
  rw [hperform] at turn
  cases turn with
  | @committed _ edit refresh next hplanned hmade =>
    obtain ⟨ν, hmirrors⟩ := hsteady.sound
    exact ⟨edit, refresh, next, hplanned, fun node hnode =>
      ((plan_grants hmirrors command).of_eq_ok hplanned).nodes _ hmirrors.wellFormed hcommand node
        hnode, hmade, rfl⟩
  | idle hclosed hrequest =>
    rcases hrequest with ⟨h, -⟩ | ⟨h, -⟩ <;> cases h

/-- Whatever a command that is carried out announces is true of the editors before and after it, in
a batch or outside of one, and something is announced. -/
theorem reports_of_perform {after : Editor} {command : Command} {reply : Reply}
    (hreachable : editor.Reachable) (hcommand : ∀ node ∈ command.nodes, node.WellFormed)
    (hperform : editor.perform command = (.ok reply, after)) : editor.Reports after := by
  have hsteady := hreachable.steady
  obtain ⟨edit, refresh, next, hplanned, hedit, hmade, rfl⟩ :=
    committed_of_perform hsteady hcommand hperform
  obtain ⟨ν, hmirrors⟩ := hsteady.sound
  have hnext : next.Sound := (turns_of_apply hmirrors hedit hmade).imp fun _ => And.left
  obtain ⟨events, hevents, htruthful, hmain⟩ := reports_apply ⟨ν, hmirrors⟩ hedit hmade
  obtain ⟨journal, history, heq, again, hjournal, hagain⟩ := recordEdit_adds hnext edit refresh
  rw [heq]
  refine ⟨events ++ again, ?_, fun event hevent => ?_, ?_⟩
  · rw [hjournal, hevents, List.append_assoc]
  · rcases List.mem_append.mp hevent with hmem | hmem
    · exact truthful_withRecord (htruthful event hmem) journal history
    · obtain ⟨h, rfl, hlive⟩ := hagain event hmem
      exact hlive
  · obtain ⟨event, hmem, hedit⟩ := hmain
    exact ⟨event, List.mem_append_left _ hmem, hedit⟩

/-- Removing the first of two blocks is reported: its members were where they are announced, though
the other block is there afterwards. -/
theorem reports_removedBlock : ∃ (editor after : Editor) (reply : Reply), editor.Reachable ∧
    editor.perform (.removeBlock ⟨⟨0, 0⟩, "groups"⟩ 0) = (.ok reply, after) ∧
      editor.Reports after ∧
      after.store.journal.toList.drop editor.store.journal.size =
        [.stateDestroyed (.within ⟨0, 0⟩ "groups" (.member 0 0)) ⟨6, 0⟩,
          .removed (.within ⟨0, 0⟩ "groups" (.member 0 0)) ⟨6, 0⟩,
          .stateDestroyed (.within ⟨0, 0⟩ "groups" (.member 0 1)) ⟨7, 0⟩,
          .removed (.within ⟨0, 0⟩ "groups" (.member 0 1)) ⟨7, 0⟩,
          .blockDestroyed ⟨⟨0, 0⟩, "groups"⟩ 0] := by
  obtain ⟨start, hstart, htest⟩ := exists_start (d := .sample) (g := .free) (s := .standard)
    (p := fun start =>
      let removed := start.perform (.removeBlock ⟨⟨0, 0⟩, "groups"⟩ 0)
      removed.1.toOption.isSome &&
        removed.2.store.journal.toList.drop start.store.journal.size =
          [.stateDestroyed (.within ⟨0, 0⟩ "groups" (.member 0 0)) ⟨6, 0⟩,
            .removed (.within ⟨0, 0⟩ "groups" (.member 0 0)) ⟨6, 0⟩,
            .stateDestroyed (.within ⟨0, 0⟩ "groups" (.member 0 1)) ⟨7, 0⟩,
            .removed (.within ⟨0, 0⟩ "groups" (.member 0 1)) ⟨7, 0⟩,
            .blockDestroyed ⟨⟨0, 0⟩, "groups"⟩ 0]) (by cbv)
  simp only [Bool.and_eq_true, decide_eq_true_eq] at htest
  obtain ⟨hgranted, hannounced⟩ := htest
  obtain ⟨reply, hreply⟩ := Option.isSome_iff_exists.mp hgranted
  have hperform : start.perform (.removeBlock ⟨⟨0, 0⟩, "groups"⟩ 0) =
      (.ok reply, (start.perform (.removeBlock ⟨⟨0, 0⟩, "groups"⟩ 0)).2) :=
    Prod.ext (toOption_eq_some.mp hreply) rfl
  have hreachable := reachable_ofDocument Node.wellFormed_sample Grammar.distinct_free hstart
  exact ⟨start, _, reply, hreachable, hperform,
    reports_of_perform hreachable (by decide) hperform, hannounced⟩

end Editor

end TreeEditor
