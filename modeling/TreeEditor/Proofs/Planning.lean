import TreeEditor.Editor.Request
import TreeEditor.Proofs.Conditions
import TreeEditor.Proofs.Inverse

/-!
# Planning commands

A command is planned as an edit that records what is in the document, so taking the edit back
restores the document (`Editor.Planned`). What the edit brings into the document was given with the
command or is part of the document. Planning may be refused but does not break down: what it looks
up in the document is there when the states have it (`Editor.plan_grants`).
-/

namespace TreeEditor

namespace Node.Everywhere

variable {p : Node → Prop} {node child : Node}

/-- What holds everywhere in a document holds everywhere below a step. -/
theorem step (h : node.Everywhere p) {step : Step} (hstep : node.step step = .ok child) :
    child.Everywhere p := by
  obtain ⟨P, hP, hchild⟩ := step_eq_ok.mp hstep
  exact h.property hP (Property.mem_nodes_of_childAt? hchild)

/-- What holds everywhere in a document holds everywhere below the end of a path. -/
theorem descend (h : node.Everywhere p) {path : Path} (hpath : node.descend path = .ok child) :
    child.Everywhere p := by
  induction path generalizing node with
  | nil => cases hpath; exact h
  | cons first rest ih =>
    obtain ⟨next, hfirst, hrest⟩ := bind_eq_ok.mp hpath
    exact ih (h.step hfirst) hrest

end Node.Everywhere

namespace Editor

variable {editor : Editor} {ν : Handle → Option Node} {branch : BranchPath} {given : List Node}

/-- An edit that is planned records what is in the document, and the nodes that it records are given
ones or part of the document. -/
structure Planned (editor : Editor) (given : List Node) (edit : Edit) : Prop where
  faithful : edit.Faithful editor.grammar editor.document
  nodes : ∀ p, editor.document.Everywhere p → (∀ node ∈ given, node.Everywhere p) →
    ∀ node ∈ edit.nodes, node.Everywhere p

/-- What an edit changes is a property of the node at its path. -/
theorem property?_of_target (hmirrors : editor.Mirrors ν) {edit : Edit} {owner owner' : Node}
    {P : Property Node} (hreach : editor.grammar.reach editor.document edit.site.owner = some owner)
    (htarget : edit.target editor.grammar owner = some P)
    (hnode : editor.nodeAt edit.site.owner = .ok owner') :
    owner = owner' ∧ owner.property? edit.site.property = some P := by
  have hdescend := Grammar.descend_of_reach hmirrors.wellFormed hreach
  rw [nodeAt, hdescend] at hnode
  exact ⟨Except.ok.inj hnode,
    Edit.property?_target (Grammar.wellFormed_reach hmirrors.wellFormed hreach) htarget⟩

/-- The node in a slot of what an edit changes is the one at the path of the slot. -/
theorem childAt?_of_target (hmirrors : editor.Mirrors ν) {edit : Edit} {owner node : Node}
    {P : Property Node} {slot : Slot}
    (hreach : editor.grammar.reach editor.document edit.site.owner = some owner)
    (htarget : edit.target editor.grammar owner = some P)
    (hnode : editor.nodeAt (edit.site.child slot) = .ok node) : P.childAt? slot = some node := by
  obtain ⟨owner', howner', hstep⟩ := bind_eq_ok.mp
    ((Node.descend_append editor.document edit.site.owner _).symm.trans hnode)
  obtain ⟨rfl, hP⟩ := property?_of_target hmirrors hreach htarget howner'
  obtain ⟨child, hchild, hend⟩ := bind_eq_ok.mp hstep
  cases hend
  obtain ⟨P', hP', hheld⟩ := Node.step_eq_ok.mp hchild
  rw [hP] at hP'
  cases hP'
  exact hheld

/-- An edit of a path has the given nodes only and restores what it changes in any case. -/
theorem Planned.of_given {edit : Edit} (hrestores : ∀ P, edit.restoration P = P)
    (hgiven : ∀ node ∈ edit.nodes, node ∈ given) : editor.Planned given edit :=
  ⟨fun _ P _ _ => hrestores P, fun _ _ hp node hnode => hp node (hgiven node hnode)⟩

/-- An edit without nodes is planned as it is. -/
theorem Planned.of_none {edit : Edit} (hrestores : ∀ P, edit.restoration P = P)
    (hnone : edit.nodes = []) : editor.Planned given edit :=
  .of_given hrestores fun node hnode => by rw [hnone] at hnode; cases hnode

/-- The node of a state is part of the document. -/
theorem everywhere_nodeAt {p : Node → Prop} {path : Path} {node : Node}
    (hp : editor.document.Everywhere p) (hnode : editor.nodeAt path = .ok node) :
    node.Everywhere p := hp.descend hnode

/-- A block can be read where the document has it. -/
theorem blockAt_eq_ok {block : Nat} {content : Block Node Node} :
    editor.blockAt branch block = .ok content ↔ ∃ node blocks,
      editor.nodeAt branch.owner = .ok node ∧
      node.property? branch.property = some (.blockList blocks) ∧
      blocks[block]? = some content := by
  have hbreak : ∀ blocks : List (Block Node Node),
      orBreak (Blocks.blockAt block blocks) = .ok content ↔ blocks[block]? = some content :=
    fun blocks => by
      rw [← Blocks.blockAt_eq_ok]
      cases Blocks.blockAt block blocks with
      | ok content => simp
      | error reason => cases reason <;> simp [orBreak]
  simp only [blockAt, blocksAt, bind_eq_ok, orRefuse_eq_ok, refuseShape_eq_ok,
    Node.blockList_eq_ok, hbreak]
  constructor
  · rintro ⟨blocks, ⟨node, hnode, hblocks⟩, hcontent⟩
    exact ⟨node, blocks, hnode, hblocks, hcontent⟩
  · rintro ⟨node, blocks, hnode, hblocks, hcontent⟩
    exact ⟨blocks, ⟨node, hnode, hblocks⟩, hcontent⟩

/-- The nodes of a block are part of the document. -/
theorem everywhere_blockAt {p : Node → Prop} {block : Nat} {content : Block Node Node}
    (hp : editor.document.Everywhere p) (hblock : editor.blockAt branch block = .ok content)
    {node : Node} (hnode : node = content.header.pattern ∨ node = content.header.source ∨
      node ∈ content.members) : node.Everywhere p := by
  obtain ⟨owner, blocks, howner, hblocks, hcontent⟩ := blockAt_eq_ok.mp hblock
  exact (everywhere_nodeAt hp howner).property hblocks
    (Edit.mem_nodes_blockList.mpr ⟨content, List.mem_of_getElem? hcontent, hnode⟩)

/-- The blocks of what an edit changes are those of the document. -/
theorem blocks_of_target (hmirrors : editor.Mirrors ν) {edit : Edit} {owner : Node}
    {P : Property Node} {block : Nat} {content : Block Node Node}
    (hreach : editor.grammar.reach editor.document edit.site.owner = some owner)
    (htarget : edit.target editor.grammar owner = some P)
    (hblock : editor.blockAt edit.site block = .ok content) :
    ∃ blocks, P = .blockList blocks ∧ blocks[block]? = some content := by
  obtain ⟨owner', blocks, howner', hblocks, hcontent⟩ := blockAt_eq_ok.mp hblock
  obtain ⟨rfl, hP⟩ := property?_of_target hmirrors hreach htarget howner'
  rw [hP] at hblocks
  cases hblocks
  exact ⟨blocks, rfl, hcontent⟩

/-- The document has every block that the states have. -/
theorem exists_blockAt (hmirrors : editor.Mirrors ν) {owner : Handle}
    {states : List (Block Node Handle)} (hclimbs : editor.store.Climbs owner branch.owner)
    (hstates : editor.store.branch? owner branch.property = some (.blockList states)) {block : Nat}
    (hblock : block < states.length) :
    ∃ content, editor.blockAt branch block = .ok content := by
  obtain ⟨locus, -, hbranch⟩ := Locus.exists_of_branch? hmirrors hclimbs hstates
  obtain ⟨blocks, hblocks, hcorrespond⟩ := locus.exists_blocks hbranch
  rw [← hcorrespond.length_eq] at hblock
  exact ⟨_, (locus.blockAt_eq_ok hblocks).mpr (List.getElem?_eq_getElem hblock)⟩

/-- The blocks of a state are those of its branch. -/
theorem blocks_eq_ok {store : Store} {owner : Handle} {property : String}
    {states : List (Block Node Handle)} : store.blocks owner property = .ok states ↔
      store.branch? owner property = some (.blockList states) := by
  simp only [Store.blocks, bind_eq_ok, Store.branch_eq_ok]
  constructor
  · rintro ⟨branch, hbranch, hblocks⟩
    cases branch <;> cases hblocks
    exact hbranch
  · exact fun hbranch => ⟨_, hbranch, rfl⟩

/-! ## Addresses -/

/-- The path of a state is found, unless the state is gone. -/
theorem pathOf_grants (hmirrors : editor.Mirrors ν) (owner : Handle) :
    Grants (editor.pathOf owner) (editor.store.Climbs owner) := by
  by_cases hlive : editor.store.Live owner
  · obtain ⟨path, hclimbs⟩ := hmirrors.standing.rooted owner hlive
    rw [pathOf_eq_ok.mpr hclimbs]
    exact hclimbs
  · obtain ⟨reason, hpath⟩ := pathOf_refused hlive
    rw [hpath]
    exact .refused reason

/-- The address of a property of a state leads to the state. -/
theorem branchPathOf_grants (hmirrors : editor.Mirrors ν) (owner : Handle) (property : String) :
    Grants (editor.branchPathOf owner property) fun address =>
      editor.store.Climbs owner address.owner ∧ address.property = property :=
  (pathOf_grants hmirrors owner).bind fun _ _ hclimbs => .granted ⟨hclimbs, rfl⟩

/-- The address and the blocks of a list of blocks are those of a branch. -/
theorem blocksOf_grants (hmirrors : editor.Mirrors ν) (site : BranchRef) :
    Grants (editor.blocksOf site) fun found => editor.store.Climbs site.owner found.1.owner ∧
      editor.store.branch? site.owner found.1.property = some (.blockList found.2) := by
  refine (branchPathOf_grants hmirrors site.owner site.property).bind fun address _ haddress => ?_
  obtain ⟨hclimbs, hproperty⟩ := haddress
  refine .bind (.ofRefusal fun states hstates => blocks_eq_ok.mp hstates) fun states _ hheld =>
    .granted ⟨hclimbs, ?_⟩
  rw [hproperty]
  exact hheld

/-! ## Commands -/

/-- An edit that takes the node of a slot out restores it. -/
theorem planned_child (hmirrors : editor.Mirrors ν) {edit : Edit} (slot : Slot) {node : Node}
    (hsite : edit.site = branch) (hnode : editor.nodeAt (branch.child slot) = .ok node)
    (hrestores : ∀ P, edit.restoration P = P.replaceChild slot node)
    (hnodes : ∀ other ∈ edit.nodes, other = node ∨ other ∈ given) :
    editor.Planned given edit := by
  subst hsite
  refine ⟨fun owner P hreach htarget => ?_, fun p hp hgiven other hother => ?_⟩
  · rw [hrestores]
    exact Property.replaceChild_self (childAt?_of_target hmirrors hreach htarget hnode)
  · rcases hnodes other hother with rfl | hmem
    · exact everywhere_nodeAt hp hnode
    · exact hgiven other hmem

/-- An edit that removes a block restores it. -/
theorem planned_removeBlock (hmirrors : editor.Mirrors ν) {block : Nat} {content : Block Node Node}
    (hblock : editor.blockAt branch block = .ok content) :
    editor.Planned given (.removeBlock branch block content) := by
  refine ⟨fun owner P hreach htarget => ?_, fun p hp _ other hother => ?_⟩
  · obtain ⟨blocks, rfl, hcontent⟩ := blocks_of_target hmirrors hreach htarget hblock
    obtain ⟨hlt, rfl⟩ := List.getElem?_eq_some_iff.mp hcontent
    exact congrArg Property.blockList (List.set_getElem_self hlt)
  · simp only [Edit.nodes, List.mem_cons] at hother
    exact everywhere_blockAt hp hblock hother

/-- A removal is planned for what the document has at the place. -/
theorem planRemove_grants (hmirrors : editor.Mirrors ν) (place : Place) :
    Grants (editor.planRemove place) (editor.Planned []) := by
  refine .bind (.ofRefusal fun _ _ => trivial) fun ⟨owner, property, slot⟩ _ _ => ?_
  refine (branchPathOf_grants hmirrors owner property).bind fun address _ haddress => ?_
  obtain ⟨hclimbs, rfl⟩ := haddress
  refine .bind (.ofRefusal fun states hstates => Store.branch_eq_ok.mp hstates)
    fun states _ hheld => .bind (.ofRefusal fun _ _ => trivial) fun _ _ _ => ?_
  have hremove : Grants (do
      return .remove address slot (← orRefuse (editor.nodeAt (address.child slot))))
      (editor.Planned []) := by
    refine .bind (.ofRefusal fun node hnode => hnode) fun node _ hnode => .granted ?_
    exact planned_child hmirrors slot rfl hnode (fun _ => rfl) fun other hother =>
      .inl (List.mem_singleton.mp hother)
  -- The removal of the only member of a block is planned as the removal of the block.
  cases honly : states.isOnlyMember slot with
  | false => exact hremove
  | true =>
    cases slot with
    | member block position =>
      cases states with
      | blockList blocks =>
        have hblock : block < blocks.length := by
          by_contra hlt
          simp [Branch.isOnlyMember, List.getElem?_eq_none (Nat.le_of_not_lt hlt)] at honly
        obtain ⟨content, hcontent⟩ := exists_blockAt hmirrors hclimbs hheld hblock
        dsimp only
        rw [hcontent]
        exact planned_removeBlock hmirrors hcontent
      | _ => cases honly
    | _ => cases states <;> cases honly

/-- A replacement is planned for what the document has at the place. -/
theorem planReplace_grants (hmirrors : editor.Mirrors ν) (place : Place) (node : Node) :
    Grants (editor.planReplace place node) (editor.Planned [node]) := by
  refine .bind (.ofRefusal fun _ _ => trivial) fun ⟨owner, property, slot⟩ _ _ => ?_
  refine (branchPathOf_grants hmirrors owner property).bind fun address _ haddress => ?_
  obtain ⟨hclimbs, rfl⟩ := haddress
  refine .bind (.ofRefusal fun states hstates => Store.branch_eq_ok.mp hstates)
    fun states _ hheld => .bind (.ofRefusal fun _ _ => trivial) fun _ _ _ => ?_
  have hreplace : Grants (do
      return .replace address slot (← orRefuse (editor.nodeAt (address.child slot))) node)
      (editor.Planned [node]) := by
    refine .bind (.ofRefusal fun before hbefore => hbefore) fun before _ hbefore => .granted ?_
    exact planned_child hmirrors slot rfl hbefore (fun _ => rfl) fun other hother =>
      by simpa [Edit.nodes] using hother
  -- Where there is no state the node of the document decides; a vacant state refuses.
  cases hchild : states.childAt? slot with
  | none => simpa only [hchild] using hreplace
  | some child =>
    obtain ⟨locus, rfl, rfl⟩ := Locus.exists_of_branch? hmirrors hclimbs hheld
    obtain ⟨state, hstate, -⟩ := locus.exists_state slot hchild
    dsimp only
    rw [Store.expect_eq_ok.mpr hstate, ok_bind]
    split
    · exact .refused _
    · exact hreplace

/-- What an optional child is like is read off the document. -/
theorem optionalOf_grants (hmirrors : editor.Mirrors ν) (place : Place) :
    Grants (editor.optionalOf place) fun found => ∃ node, editor.nodeAt found.1.owner = .ok node ∧
      node.property? found.1.property = some (.optional found.2.1 found.2.2) := by
  refine .bind (.ofRefusal fun _ _ => trivial) fun ⟨owner, property⟩ _ _ => ?_
  refine (branchPathOf_grants hmirrors owner property).bind fun address _ haddress => ?_
  obtain ⟨-, rfl⟩ := haddress
  refine .bind (.ofRefusal fun node hnode => hnode) fun node _ hnode => ?_
  refine .bind (.ofRefusal fun found hfound =>
    Node.optional_eq_ok.mp (refuseShape_eq_ok.mp hfound)) fun found _ hfound => ?_
  exact .granted ⟨node, hnode, hfound⟩

/-- An edit of an optional child restores what the document has. -/
theorem planned_optional (hmirrors : editor.Mirrors ν) {edit : Edit} {node : Node} {assigned : Bool}
    {item : Option Node} (hsite : edit.site = branch)
    (hnode : editor.nodeAt branch.owner = .ok node)
    (hproperty : node.property? branch.property = some (.optional assigned item))
    (hrestores : ∀ P, edit.restoration P = .optional assigned item)
    (hnodes : ∀ other ∈ edit.nodes, other ∈ item ∨ other ∈ given) :
    editor.Planned given edit := by
  subst hsite
  refine ⟨fun owner P hreach htarget => ?_, fun p hp hgiven other hother => ?_⟩
  · obtain ⟨rfl, hP⟩ := property?_of_target hmirrors hreach htarget hnode
    rw [hP] at hproperty
    cases hproperty
    exact hrestores _
  · rcases hnodes other hother with hitem | hmem
    · exact (everywhere_nodeAt hp hnode).property hproperty (Option.mem_toList.mpr hitem)
    · exact hgiven other hmem

/-- An assignment is planned for an optional child that is not assigned. -/
theorem planAssign_grants (hmirrors : editor.Mirrors ν) (place : Place) (node : Option Node) :
    Grants (editor.planAssign place node) (editor.Planned node.toList) := by
  refine (optionalOf_grants hmirrors place).bind fun ⟨address, assigned, retained⟩ _ hfound => ?_
  obtain ⟨owner, howner, hproperty⟩ := hfound
  cases assigned with
  | true => exact .refused _
  | false =>
    refine .bind (.ofOption fun after hafter => hafter) fun after _ hafter => .granted ?_
    refine planned_optional hmirrors rfl howner hproperty (fun _ => rfl) fun other hother => ?_
    simp only [Edit.nodes, List.mem_cons, Option.mem_toList] at hother
    rcases hother with rfl | hother
    · cases node with
      | none => exact .inl hafter
      | some node => exact .inr (Option.mem_toList.mpr hafter)
    · exact .inl hother

/-- An optional child is planned to be unassigned when it is assigned with an item. -/
theorem planUnassign_grants (hmirrors : editor.Mirrors ν) (place : Place) :
    Grants (editor.planUnassign place) (editor.Planned []) := by
  refine (optionalOf_grants hmirrors place).bind fun ⟨address, assigned, item⟩ _ hfound => ?_
  obtain ⟨owner, howner, hproperty⟩ := hfound
  cases assigned with
  | false => exact .refused _
  | true =>
    cases item with
    | none => exact .refused _
    | some item =>
      refine planned_optional hmirrors rfl howner hproperty (fun _ => rfl) fun other hother => ?_
      simp only [Edit.nodes, Option.toList_some, List.mem_cons, List.not_mem_nil, or_false,
        or_self] at hother
      exact .inl (Option.mem_def.mpr (congrArg some hother.symm))

/-- A block that a command names is one of the document. -/
theorem namedBlock_grants (hmirrors : editor.Mirrors ν) (site : BranchRef) (block : Nat)
    (edit : BranchPath → Block Node Node → Edit) (refresh : BranchPath → Option Path)
    (h : ∀ address content, editor.blockAt address block = .ok content →
      editor.Planned given (edit address content)) :
    Grants (editor.blocksOf site >>= fun found =>
      orRefuse (Blocks.blockAt block found.2) >>= fun _ =>
        editor.blockAt found.1 block >>= fun content =>
          .ok (edit found.1 content, refresh found.1)) fun planned =>
      editor.Planned given planned.1 := by
  refine (blocksOf_grants hmirrors site).bind fun ⟨address, states⟩ _ ⟨hclimbs, hheld⟩ => ?_
  refine .bind (.ofRefusal fun _ hblock => Blocks.blockAt_eq_ok.mp hblock) fun _ _ hblock => ?_
  obtain ⟨hlt, -⟩ := List.getElem?_eq_some_iff.mp hblock
  obtain ⟨content, hcontent⟩ := exists_blockAt hmirrors hclimbs hheld hlt
  rw [hcontent]
  exact h address content hcontent

/-- Joining a block with the next one restores the header of that. -/
theorem planned_mergeBlocks (hmirrors : editor.Mirrors ν) {block : Nat} {next : Block Node Node}
    (hnext : editor.blockAt branch (block + 1) = .ok next) (position : Nat) :
    editor.Planned given (.mergeBlocks branch block position next.header) := by
  refine ⟨fun owner P hreach htarget => ?_, fun p hp _ other hother => ?_⟩
  · obtain ⟨blocks, rfl, hblock⟩ := blocks_of_target hmirrors hreach htarget hnext
    refine congrArg Property.blockList (List.ext_getElem? fun i => ?_)
    rw [List.getElem?_modify]
    split
    · subst i
      rw [hblock]
      rfl
    · rw [Option.map_eq_map, Option.map_id']
  · simp only [Edit.nodes, List.mem_cons, List.not_mem_nil, or_false] at hother
    exact everywhere_blockAt hp hnext (hother.imp_right .inl)

end Editor

/-- The nodes that a command brings along. -/
def Command.nodes : Command → List Node
  | .insert insertion =>
    match insertion.target with
    | .newBlock _ header => [header.pattern, header.source, insertion.node]
    | _ => [insertion.node]
  | .replace _ node => [node]
  | .assign _ node => node.toList
  | .insertBlock _ _ content => content.header.pattern :: content.header.source :: content.members
  | _ => []

/-- A command is planned as an edit that records what is in the document. -/
theorem Editor.plan_grants {editor : Editor} {ν : Handle → Option Node}
    (hmirrors : editor.Mirrors ν) (command : Command) :
    Grants (editor.plan command) fun planned => editor.Planned command.nodes planned.1 := by
  -- Each command is planned by a function of its own; what it records was found in the document.
  cases command with
  | insert insertion =>
    refine (branchPathOf_grants hmirrors _ _).bind fun address _ _ => .granted ?_
    obtain ⟨parent, property, target, node⟩ := insertion
    cases target <;> exact .of_given (fun _ => rfl) fun _ => id
  | remove place => exact (planRemove_grants hmirrors place).bind fun _ _ hplanned => hplanned
  | replace place node =>
    exact (planReplace_grants hmirrors place node).bind fun _ _ hplanned => hplanned
  | move place delta =>
    refine .bind (.ofRefusal fun _ _ => trivial) fun parts _ _ => ?_
    exact (branchPathOf_grants hmirrors parts.1 parts.2.1).bind fun _ _ _ =>
      .granted (.of_none (fun _ => rfl) rfl)
  | assign place node =>
    exact (planAssign_grants hmirrors place node).bind fun _ _ hplanned => hplanned
  | unassign place => exact (planUnassign_grants hmirrors place).bind fun _ _ hplanned => hplanned
  | insertBlock branch block content =>
    exact (blocksOf_grants hmirrors branch).bind fun _ _ _ =>
      .granted (.of_given (fun _ => rfl) fun _ => id)
  | removeBlock branch block =>
    exact namedBlock_grants hmirrors branch block
      (fun address content => .removeBlock address block content) (fun _ => none)
      fun _ _ hcontent => planned_removeBlock hmirrors hcontent
  | splitBlock branch block position =>
    refine namedBlock_grants hmirrors branch block
      (fun address content => .splitBlock address block position content.header)
      (fun address => some address.owner) fun _ _ hcontent =>
        ⟨fun _ _ _ _ => rfl, fun p hp _ other hother => everywhere_blockAt hp hcontent ?_⟩
    simp only [Edit.nodes, List.mem_cons, List.not_mem_nil, or_false] at hother
    exact hother.imp_right .inl
  | mergeBlocks branch block =>
    refine (blocksOf_grants hmirrors branch).bind fun found _ hfound => ?_
    obtain ⟨hclimbs, hheld⟩ := hfound
    refine .bind (.ofRefusal fun position hmerge => Blocks.lt_of_checkMerge hmerge)
      fun position _ hlt => ?_
    obtain ⟨next, hnext⟩ := exists_blockAt hmirrors hclimbs hheld hlt
    rw [hnext]
    exact planned_mergeBlocks hmirrors hnext position
  | moveBlock branch block delta =>
    exact (blocksOf_grants hmirrors branch).bind fun _ _ _ =>
      .granted (.of_none (fun _ => rfl) rfl)
  | changeReplication branch block replication =>
    exact namedBlock_grants hmirrors branch block (fun address content =>
        .changeReplication address block content.header.replication replication)
      (fun address => some address.owner) fun _ _ _ => .of_none (fun _ => rfl) rfl
  | setValue state property value =>
    refine (pathOf_grants hmirrors state).bind fun owner _ _ => ?_
    refine .bind (.ofRefusal fun _ _ => trivial) fun node _ _ => ?_
    refine .bind (.ofRefusal fun _ _ => trivial) fun leaf _ _ => .granted ?_
    exact .of_none (fun _ => rfl) rfl

end TreeEditor
