import TreeEditor.Proofs.Runs

/-!
# Handles follow their nodes

A state stands for a node of the document or for the slot of an optional child without one; the
paths of both are the seats of a document (`Grammar.Seat`), and every seat has one state
(`Editor.Mirrors.climbs_iff`). An edit removes the states of the content that it takes out, makes
one state for every seat of the content that it puts in, and leaves every other handle the node that
it had, except for the owner of the property and the states above (`Editor.apply_handles`). When an
optional child is assigned the state of its slot stays and stands for the content from then on, so
the content gets one new state less than it has seats.
-/

namespace TreeEditor

namespace Grammar

variable {grammar : Grammar} {document node found : Node} {path rest : Path}

/-- A path is that of a node, or of the slot of an optional child without one. -/
def Seat (grammar : Grammar) (document : Node) (path : Path) : Prop :=
  (∃ node, grammar.reach document path = some node) ∨
    ∃ owner name assigned item up, path = up ++ [⟨name, .optional⟩] ∧
      grammar.reach document up = some owner ∧
        grammar.branch? owner name = some (.optional assigned item) ∧
          (if assigned then item else none) = none

/-- The seats below a node that is reached are those of the node. -/
theorem seat_append (h : grammar.reach document path = some node) :
    grammar.Seat document (path ++ rest) ↔ grammar.Seat node rest := by
  unfold Seat
  rw [reach_append, h, Option.bind_some]
  rcases rest.eq_nil_or_concat' with rfl | ⟨below, step, rfl⟩
  · exact ⟨fun _ => .inl ⟨node, rfl⟩, fun _ => .inl ⟨node, rfl⟩⟩
  refine or_congr_right (exists₄_congr fun owner name assigned item => ?_)
  constructor
  · rintro ⟨up, heq, hreach, hslot⟩
    rw [← List.append_assoc] at heq
    obtain ⟨rfl, hstep⟩ := List.append_inj' heq rfl
    rw [reach_append, h] at hreach
    exact ⟨below, by rw [hstep], hreach, hslot⟩
  · rintro ⟨up, heq, hreach, hslot⟩
    obtain ⟨rfl, hstep⟩ := List.append_inj' heq rfl
    exact ⟨path ++ below, by rw [hstep, List.append_assoc], by rw [reach_append, h]; exact hreach,
      hslot⟩

/-- Above a seat are nodes only, and where no optional child may stand the seat is a node too. -/
theorem Seat.reach_child {branch : BranchPath} {slot : Slot}
    (h : grammar.Seat document (branch.child slot ++ rest)) (hslot : slot ≠ .optional) :
    ∃ node, grammar.reach document (branch.child slot) = some node := by
  rcases h with ⟨node, hreach⟩ | ⟨owner, name, assigned, item, up, heq, hreach, -⟩
  · rw [reach_append] at hreach
    obtain ⟨child, hchild, -⟩ := Option.bind_eq_some_iff.mp hreach
    exact ⟨child, hchild⟩
  · rcases rest.eq_nil_or_concat' with rfl | ⟨below, step, rfl⟩
    · rw [List.append_nil] at heq
      have hstep := (List.append_inj' heq rfl).2
      simp only [List.cons.injEq, Step.mk.injEq, and_true] at hstep
      exact absurd hstep.2 hslot
    · rw [← List.append_assoc] at heq
      obtain ⟨rfl, -⟩ := List.append_inj' heq rfl
      rw [reach_append] at hreach
      obtain ⟨child, hchild, -⟩ := Option.bind_eq_some_iff.mp hreach
      exact ⟨child, hchild⟩

end Grammar

namespace Edit

/-- The nodes that an edit puts into the document, each with its slot. -/
def contents : Edit → List (Slot × Node)
  | insert _ slot node | replace _ slot _ node => [(slot, node)]
  | assign _ _ after => [(.optional, after)]
  | insertBlock _ block content =>
    content.members.zipIdx.map fun entry => (.member block entry.2, entry.1)
  | _ => []

/-- An edit leaves the state with that path to the content that it puts there. -/
def Reuses (edit : Edit) (path : Path) : Prop :=
  match edit with
  | assign branch _ _ => path = branch.child .optional
  | _ => False

/-- A path is that of a seat in what an edit puts into the document, and no state is there that
could be left to it. -/
def Founds (grammar : Grammar) (edit : Edit) (path : Path) : Prop :=
  ¬ edit.Reuses path ∧ ∃ slot content rest, (slot, content) ∈ edit.contents ∧
    path = edit.site.child slot ++ rest ∧ grammar.Seat content rest

variable {grammar : Grammar} {edit : Edit} {document document' : Node} {allows : Node → Bool}
  {P P' : Property Node} {path : Path}

/-- The members of a block with their slots. -/
theorem mem_contents_insertBlock {branch : BranchPath} {block : Nat} {content : Block Node Node}
    {slot : Slot} {node : Node} :
    (slot, node) ∈ (insertBlock branch block content).contents ↔
      ∃ position, slot = .member block position ∧ content.members[position]? = some node := by
  rw [contents, List.mem_map]
  constructor
  · rintro ⟨⟨member, position⟩, hmem, heq⟩
    cases heq
    exact ⟨position, rfl, (List.mem_zipIdx_iff_getElem?.mp hmem)⟩
  · rintro ⟨position, rfl, hmember⟩
    exact ⟨(node, position), List.mem_zipIdx_iff_getElem?.mpr hmember, rfl⟩

/-- What an edit puts into the document stands in its slot. -/
theorem childAt?_contents (h : edit.alter allows P = some P') {slot : Slot} {content : Node}
    (hmem : (slot, content) ∈ edit.contents) : P'.childAt? slot = some content := by
  -- Edits without contents put nothing anywhere; they fall to the last case.
  cases alter_eq_some.mp h with
  | @insertItem _ position node nodes _ admitted done =>
    cases List.mem_singleton.mp hmem
    obtain ⟨hle, rfl⟩ := insertItem_eq_ok.mp done
    rw [Property.childAt?, List.getElem?_insertIdx_self, if_pos hle]
  | @insertMember _ block position node blocks _ admitted done =>
    cases List.mem_singleton.mp hmem
    obtain ⟨before, held, after, rfl, rfl, hle, rfl⟩ := Blocks.insertMember_eq_ok.mp done
    simp [Property.childAt?, List.getElem?_insertIdx_self, hle]
  | replace there same admitted =>
    cases List.mem_singleton.mp hmem
    rw [Property.childAt?_replaceChild, if_pos rfl, there, Option.map_some]
  | assign vacant same admitted =>
    cases List.mem_singleton.mp hmem
    rfl
  | @insertBlock branch block inserted blocks _ inhabited admitted done =>
    obtain ⟨position, rfl, hmember⟩ := mem_contents_insertBlock.mp hmem
    obtain ⟨hle, rfl⟩ := insertItem_eq_ok.mp done
    rw [Property.childAt?, List.getElem?_insertIdx_self, if_pos hle, Option.bind_some, hmember]
  | _ => cases hmem

/-- What stands in the slots of the property that an edit changes, before and after the edit. -/
theorem reach_site_child (hdocument : document.WellFormed)
    (h : edit.effect grammar document = some document')
    (hsite : ∀ owner, edit.target grammar owner = grammar.branch? owner edit.site.property) :
    ∃ (P P' : Property Node) (allows : Node → Bool), edit.alter allows P = some P' ∧
      (∀ slot, grammar.reach document (edit.site.child slot) = P.childAt? slot) ∧
        ∀ slot, grammar.reach document' (edit.site.child slot) = P'.childAt? slot := by
  obtain ⟨owner, P, P', hreach, htarget, halter, rfl⟩ := effect_eq_some.mp h
  have howner := Grammar.wellFormed_reach hdocument hreach
  have hP := property?_target howner htarget
  rw [hsite] at htarget
  refine ⟨P, P', _, halter, fun slot => ?_, fun slot => ?_⟩
  · rw [BranchPath.child, Path.child, Grammar.reach_append, hreach, Option.bind_some,
      Grammar.reach_singleton, Grammar.stepTo, htarget]
    rfl
  · rw [BranchPath.child, Path.child, Grammar.reach_put_append hdocument hreach,
      Grammar.reach_singleton, Grammar.stepTo,
      Grammar.branch?_set howner.keys hP (kind_alter halter), if_pos rfl, htarget]
    rfl

/-- A child is assigned only where the document has no node. -/
theorem reach_eq_none_of_assign {branch : BranchPath} {before : Option Node} {after : Node}
    (hdocument : document.WellFormed)
    (h : (assign branch before after).effect grammar document = some document') :
    grammar.reach document (branch.child .optional) = none := by
  obtain ⟨P, P', allows, halter, hslots, -⟩ := reach_site_child hdocument h fun _ => rfl
  rw [show branch = (assign branch before after).site from rfl, hslots]
  cases alter_eq_some.mp halter with
  | @assign _ assigned item _ _ vacant =>
    cases assigned with
    | false => rfl
    | true =>
      obtain rfl : item = none := by simpa using vacant
      rfl

/-- Where a child is unassigned the document had a node that is the same as the recorded one, and
has none any more. -/
theorem reach_child_of_unassign {branch : BranchPath} {item : Node} {restore : Option Node}
    (hdocument : document.WellFormed)
    (h : (unassign branch item restore).effect grammar document = some document') :
    (∃ held, grammar.reach document (branch.child .optional) = some held ∧ held.Same item) ∧
      grammar.reach document' (branch.child .optional) = none := by
  obtain ⟨P, P', allows, halter, hslots, hslots'⟩ := reach_site_child hdocument h fun _ => rfl
  rw [show branch = (unassign branch item restore).site from rfl, hslots, hslots']
  cases alter_eq_some.mp halter with
  | @unassign _ _ held _ same => exact ⟨⟨held, rfl, same⟩, rfl⟩

/-- An edit that puts something into the document changes a property with children. -/
theorem target_eq_branch? (hputs : edit.contents ≠ []) (owner : Node) :
    edit.target grammar owner = grammar.branch? owner edit.site.property := by
  cases edit with
  | setValue => exact absurd rfl hputs
  | _ => rfl

/-- What an edit puts into the document is found there. -/
theorem reach_contents (hdocument : document.WellFormed)
    (h : edit.effect grammar document = some document') {slot : Slot} {content : Node}
    (hmem : (slot, content) ∈ edit.contents) :
    grammar.reach document' (edit.site.child slot) = some content := by
  obtain ⟨P, P', allows, halter, -, hslots⟩ := reach_site_child hdocument h
    (target_eq_branch? (List.ne_nil_of_mem hmem))
  rw [hslots, childAt?_contents halter hmem]

/-- The seats that an edit makes are those of its content, apart from the one that it reuses. -/
theorem founds_iff (hdocument : document.WellFormed)
    (h : edit.effect grammar document = some document') :
    edit.Founds grammar path ↔ edit.Installs path ∧ grammar.Seat document' path := by
  constructor
  · rintro ⟨hreuses, slot, content, rest, hmem, rfl, hseat⟩
    refine ⟨?_, (Grammar.seat_append (reach_contents hdocument h hmem)).mpr hseat⟩
    cases edit with
    | insert | replace => cases List.mem_singleton.mp hmem; exact List.prefix_append _ _
    | assign => cases List.mem_singleton.mp hmem; exact ⟨List.prefix_append _ _, hreuses⟩
    | insertBlock =>
      obtain ⟨position, rfl, -⟩ := mem_contents_insertBlock.mp hmem
      exact ⟨position, List.prefix_append _ _⟩
    | _ => cases hmem
  · rintro ⟨hinstalls, hseat⟩
    have hputs : ∀ slot content, (slot, content) ∈ edit.contents → ¬ edit.Reuses path →
        edit.site.child slot <+: path → edit.Founds grammar path := by
      rintro slot content hmem hreuses ⟨rest, rfl⟩
      exact ⟨hreuses, slot, content, rest, hmem, rfl,
        (Grammar.seat_append (reach_contents hdocument h hmem)).mp hseat⟩
    cases edit with
    | insert | replace => exact hputs _ _ (List.mem_singleton_self _) id hinstalls
    | assign => exact hputs _ _ (List.mem_singleton_self _) hinstalls.2 hinstalls.1
    | insertBlock branch block content =>
      -- The members that have states are those that the block has.
      obtain ⟨position, hprefix⟩ := hinstalls
      obtain ⟨rest, heq⟩ := id hprefix
      obtain ⟨P, P', allows, halter, -, hslots⟩ := reach_site_child hdocument h fun _ => rfl
      have hslot : (Slot.member block position) ≠ .optional := nofun
      obtain ⟨member, hmember⟩ := Grammar.Seat.reach_child (heq ▸ hseat) hslot
      have hchild := (hslots (.member block position)).symm.trans hmember
      cases alter_eq_some.mp halter with
      | insertBlock inhabited admitted done =>
        obtain ⟨hle, rfl⟩ := insertItem_eq_ok.mp done
        rw [Property.childAt?, List.getElem?_insertIdx_self, if_pos hle, Option.bind_some] at hchild
        exact hputs _ member (mem_contents_insertBlock.mpr ⟨position, rfl, hchild⟩) id hprefix
    | _ => exact hinstalls.elim

end Edit

/-- A state at the site of an edit or above it keeps its path as long as it stays. -/
theorem Store.Turns.climbs_above {grammar : Grammar} {root : Handle} {edit : Edit} {σ σ' : Store}
    {ν ν' : Handle → Option Node} (hturns : σ.Turns edit ν σ' ν')
    (hσ' : Standing grammar root σ' ν' ∅ ∅) {h : Handle} {path : Path} (hclimbs : σ.Climbs h path)
    (habove : path <+: edit.site.owner) (hlive : σ'.Live h) : σ'.Climbs h path := by
  induction hclimbs with
  | root hat =>
    rcases hturns.places _ (Store.live_of_place? hat) hlive with hsame | ⟨_, _, _, -, hmoved, -⟩
    · exact .root (hsame.trans hat)
    · cases hat.symm.trans hmoved
  | @within h parent name slot up hat hup ih =>
    rcases hturns.places _ (Store.live_of_place? hat) hlive with
      hsame | ⟨owner, _, _, howner, hmoved, -⟩
    · have hat' := hsame.trans hat
      exact .within hat' (ih ((List.prefix_append up _).trans habove) (hσ'.parent_live hat'))
    · -- What moves stands in a slot of the owner of the edit, and so below it.
      cases hat.symm.trans hmoved
      rw [hup.unique howner] at habove
      simpa using habove.length_le

namespace Editor

variable {editor editor' : Editor} {ν : Handle → Option Node} {edit : Edit} {h : Handle}
  {path : Path}

/-- Every seat of the document has a state, and every state has a seat. -/
theorem Mirrors.climbs_iff (hmirrors : editor.Mirrors ν) :
    (∃ h, editor.store.Climbs h path) ↔ editor.grammar.Seat editor.document path := by
  have hσ := hmirrors.standing
  constructor
  · rintro ⟨h, hclimbs⟩
    have hlabel := hσ.label_of_climbs hmirrors.document hclimbs
    cases hnode : ν h with
    | some node => exact .inl ⟨node, hlabel ▸ hnode⟩
    | none =>
      -- A state without a node stands in the slot of an optional child.
      cases hclimbs with
      | root hat =>
        rw [(hσ.root_iff h).mp hat, hmirrors.document] at hnode
        cases hnode
      | @within _ parent name slot up hat hup =>
        obtain ⟨owner, howner⟩ := hσ.isSome_of_place? hat
        obtain ⟨branch, hbranch, hchild⟩ :=
          (hσ.linked parent hup.live (Set.notMem_empty parent) name slot h).mp hat
        have hrel := hσ.rel_branch? hup.live howner name
        rw [hbranch, rel_some_right] at hrel
        obtain ⟨P, hP, hreflects⟩ := hrel
        obtain ⟨rfl, -⟩ := hreflects.slot_of_none hchild hnode
        cases hreflects with
        | @optional assigned item child label =>
          cases hchild
          exact .inr ⟨owner, name, assigned, item, up, rfl,
            (hσ.label_of_climbs hmirrors.document hup).symm.trans howner, hP, label ▸ hnode⟩
        | _ => cases hchild
  · rintro (⟨node, hreach⟩ | ⟨owner, name, assigned, item, up, rfl, hreach, hP, -⟩)
    · obtain ⟨h, hclimbs, -⟩ := hσ.climbs_of_reach hmirrors.document hreach
      exact ⟨h, hclimbs⟩
    · obtain ⟨parent, hclimbs, howner⟩ := hσ.climbs_of_reach hmirrors.document hreach
      have hrel := hσ.rel_branch? hclimbs.live howner name
      rw [hP, rel_some_left] at hrel
      obtain ⟨branch, hbranch, hreflects⟩ := hrel
      cases hreflects with
      | @optional _ _ child label => exact ⟨child, hσ.climbs_child hclimbs hbranch rfl⟩

/-- What an edit that was made has done to the document and to the states. -/
theorem turns_of_apply (hmirrors : editor.Mirrors ν) (hedit : edit.WellFormed)
    (happly : editor.apply edit = .ok editor') :
    ∃ ν', editor'.Mirrors ν' ∧ editor.store.Turns edit ν editor'.store ν' ∧
      edit.effect editor.grammar editor.document = some editor'.document ∧
        editor'.grammar = editor.grammar := by
  obtain ⟨document, heffect, σ', ν', rfl, hσ', hroot, hturns⟩ :=
    (apply_answers hmirrors hedit).of_eq_ok happly
  exact ⟨ν', ⟨hσ', hroot, Edit.wellFormed_effect hmirrors.wellFormed hedit heffect,
    Edit.valid_effect hmirrors.wellFormed hmirrors.valid hedit heffect, hmirrors.distinct⟩, hturns,
    heffect, rfl⟩

/-- The states that come with an edit are those of the seats that it makes. -/
theorem founds_of_apply (hmirrors : editor.Mirrors ν) (hedit : edit.WellFormed)
    (happly : editor.apply edit = .ok editor') (path : Path) :
    edit.Founds editor.grammar path ↔
      ∃ h, editor'.store.Climbs h path ∧ ¬ editor.store.Live h := by
  obtain ⟨ν', hmirrors', hturns, heffect, hgrammar⟩ := turns_of_apply hmirrors hedit happly
  rw [Edit.founds_iff hmirrors.wellFormed heffect, ← hgrammar, ← hmirrors'.climbs_iff]
  constructor
  · rintro ⟨hinstalls, h, hclimbs⟩
    exact ⟨h, hclimbs, (hturns.came h hclimbs.live).mpr ⟨path, hclimbs, hinstalls⟩⟩
  · rintro ⟨h, hclimbs, hnew⟩
    obtain ⟨path', hclimbs', hinstalls⟩ := (hturns.came h hclimbs.live).mp hnew
    rw [hclimbs.unique hclimbs']
    exact ⟨hinstalls, h, hclimbs'⟩

/-- The states that are live before an edit have their paths; those at paths that the edit discards
go and all others stay. The edit makes one new state for every seat of the content that it puts in,
apart from the state that it reuses, and no others. Every state that stays and is not touched by the
edit stands for the node that it stood for. -/
theorem apply_handles (hreachable : editor.Reachable) (hedit : edit.WellFormed)
    (happly : editor.apply edit = .ok editor') :
    (∀ h, editor.store.Live h → ∃ path, editor.pathOf h = .ok path ∧
      (editor'.store.Live h ↔ ¬ edit.Discards path) ∧
      (editor'.store.Live h → ¬ edit.Touches path → editor'.node? h = editor.node? h)) ∧
    (∀ path, edit.Founds editor.grammar path →
      ∃! h, editor'.pathOf h = .ok path ∧ ¬ editor.store.Live h) ∧
    ∀ h, editor'.store.Live h → ¬ editor.store.Live h →
      ∃ path, editor'.pathOf h = .ok path ∧ edit.Founds editor.grammar path := by
  obtain ⟨ν, hmirrors⟩ := hreachable.steady.sound
  obtain ⟨ν', hmirrors', hturns, -, -⟩ := turns_of_apply hmirrors hedit happly
  refine ⟨fun h hlive => ?_, fun path hfounds => ?_, fun h hlive hnew => ?_⟩
  · obtain ⟨path, hclimbs⟩ := hmirrors.standing.rooted h hlive
    refine ⟨path, pathOf_eq_ok.mpr hclimbs, ?_, fun hlive' htouches => ?_⟩
    · rw [hturns.gone h hlive, not_iff_not]
      constructor
      · rintro ⟨path', hclimbs', hdiscards⟩
        rwa [hclimbs.unique hclimbs']
      · exact fun hdiscards => ⟨path, hclimbs, hdiscards⟩
    · rw [node?_eq hmirrors hlive, node?_eq hmirrors' hlive',
        hturns.labels h path hclimbs hlive' htouches]
  · obtain ⟨h, hclimbs, hnew⟩ := (founds_of_apply hmirrors hedit happly path).mp hfounds
    refine ⟨h, ⟨pathOf_eq_ok.mpr hclimbs, hnew⟩, fun g hg => ?_⟩
    exact hmirrors'.standing.climbs_inj (pathOf_eq_ok.mp hg.1) hclimbs
  · obtain ⟨path, hclimbs⟩ := hmirrors'.standing.rooted h hlive
    exact ⟨path, pathOf_eq_ok.mpr hclimbs,
      (founds_of_apply hmirrors hedit happly path).mpr ⟨h, hclimbs, hnew⟩⟩

/-- An edit that replaces a member of a block by a node with two children. -/
def grafting : Edit :=
  .replace ⟨[], "groups"⟩ (.member 0 1) (.bare "Y")
    (.mk "New" [("o", .optional false none), ("l", .list [.bare "L"])])

/-- The handles of the sample document follow their nodes through such an edit. -/
theorem apply_handles_grafting :
    ∃ editor editor' : Editor, editor.Reachable ∧ grafting.WellFormed ∧
      editor.apply grafting = .ok editor' ∧
      (∀ h, editor.store.Live h → ∃ path, editor.pathOf h = .ok path ∧
        (editor'.store.Live h ↔ ¬ grafting.Discards path) ∧
        (editor'.store.Live h → ¬ grafting.Touches path → editor'.node? h = editor.node? h)) ∧
      (∀ path, grafting.Founds editor.grammar path →
        ∃! h, editor'.pathOf h = .ok path ∧ ¬ editor.store.Live h) ∧
      ∀ h, editor'.store.Live h → ¬ editor.store.Live h →
        ∃ path, editor'.pathOf h = .ok path ∧ grafting.Founds editor.grammar path := by
  have hedit : grafting.WellFormed := by decide
  obtain ⟨start, hstart, hmade⟩ := exists_start (d := .sample) (g := .free) (s := .standard)
    (p := fun start => (start.apply grafting).toOption.isSome) (by cbv)
  have hreachable := reachable_ofDocument Node.wellFormed_sample Grammar.distinct_free hstart
  obtain ⟨after, happly⟩ := Option.isSome_iff_exists.mp hmade
  have happly := toOption_eq_some.mp happly
  exact ⟨start, after, hreachable, hedit, happly, apply_handles hreachable hedit happly⟩

/-- A node without properties has a single seat. -/
theorem seat_bare {kind : String} (hseat : Grammar.free.Seat (.bare kind) path) : path = [] := by
  have hreach : ∀ (up : Path) (owner : Node), Grammar.free.reach (.bare kind) up = some owner →
      up = [] ∧ owner = .bare kind := fun up owner hreach => by
    cases up with
    | nil => exact ⟨rfl, (Option.some.inj hreach).symm⟩
    | cons step rest => cases hreach
  rcases hseat with ⟨node, hnode⟩ | ⟨owner, name, assigned, item, up, -, hup, hslot, -⟩
  · exact (hreach path node hnode).1
  · obtain ⟨-, rfl⟩ := hreach up owner hup
    cases hslot

/-- A document with an optional child that is not assigned. -/
def vacancy : Node := .mk "Root" [("o", .optional false none)]

/-- The node that is assigned to an optional child is a seat of the content, but no new state is
made for it: it gets the state of the slot. -/
theorem no_state_for_assigned :
    ∃ editor editor' : Editor, ofDocument vacancy .free .standard = .ok editor ∧
      editor.apply (.assign ⟨[], "o"⟩ none (.bare "x")) = .ok editor' ∧
        Grammar.free.Seat (.bare "x") [] ∧ ∀ h, editor'.store.Live h → editor.store.Live h := by
  obtain ⟨start, hstart, hmade⟩ := exists_start (d := vacancy) (g := .free) (s := .standard)
    (p := fun start => (start.apply (.assign ⟨[], "o"⟩ none (.bare "x"))).toOption.isSome) (by cbv)
  obtain ⟨after, happly⟩ := Option.isSome_iff_exists.mp hmade
  have happly := toOption_eq_some.mp happly
  have hdocument : vacancy.WellFormed := by decide
  have hedit : (Edit.assign ⟨[], "o"⟩ none (.bare "x")).WellFormed := by decide
  obtain ⟨⟨ν, hmirrors⟩, hgrammar, -⟩ := mirrors_ofDocument hdocument Grammar.distinct_free hstart
  obtain ⟨ν', hmirrors', -⟩ := turns_of_apply hmirrors hedit happly
  refine ⟨start, after, hstart, happly, .inl ⟨_, rfl⟩, fun h hlive => ?_⟩
  by_contra hnew
  obtain ⟨path, hclimbs⟩ := hmirrors'.standing.rooted h hlive
  obtain ⟨hreuses, slot, content, rest, hmem, rfl, hseat⟩ :=
    (founds_of_apply hmirrors hedit happly path).mpr ⟨h, hclimbs, hnew⟩
  cases List.mem_singleton.mp hmem
  rw [hgrammar] at hseat
  exact hreuses (seat_bare hseat ▸ List.append_nil _)

end Editor

end TreeEditor
