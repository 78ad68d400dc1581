import TreeEditor.Proofs.Passage
import TreeEditor.Proofs.Toggling

/-!
# What an unassigned child retains

When an optional child is unassigned its node stays in the document, unmarked, and the state of the
slot is vacant. The node is then out of reach: no path leads into it, so no edit changes anything
below it, and an edit of the slot itself either assigns the child or is refused. As long as the
state in the slot stays vacant the slot goes on retaining the node (`Editor.retains_of_apply`),
wherever the owner of the slot is moved, and assigning the child without a node brings back exactly
the node that was unassigned (`Editor.restored_of_runAll`).
-/

namespace TreeEditor

/-- A node that is put below a node leaves the properties in which no path leads on. -/
theorem Node.property?_put_below {node : Node} {name : String} {P : Property Node}
    (hP : node.property? name = some P) (hclosed : ∀ slot, P.childAt? slot = none) (step : Step)
    (rest : Path) (new : Node) :
    (node.put (step :: rest) new).kind = node.kind ∧
      (node.put (step :: rest) new).property? name = some P := by
  cases hstep : node.step step with
  | error reason =>
    rw [put, hstep]
    exact ⟨rfl, hP⟩
  | ok child =>
    obtain ⟨Q, hQ, hchild⟩ := step_eq_ok.mp hstep
    have hne : name ≠ step.property := by
      rintro rfl
      cases hP.symm.trans hQ
      rw [hclosed] at hchild
      cases hchild
    rw [put_cons hstep, replaceChild_eq _ hQ, kind_set, property?_set, if_neg hne]
    exact ⟨rfl, hP⟩

namespace Edit

variable {grammar : Grammar} {edit : Edit} {document document' node : Node}

/-- An edit of an optional child that is not assigned can only assign it. -/
theorem assigned_of_alter {admits : Node → Bool} {item : Option Node} {P' : Property Node}
    (h : edit.alter admits (.optional false item) = some P') :
    ∃ after, P' = .optional true (some after) := by
  cases alter_eq_some.mp h with
  | @replace branch slot before after held P there => cases slot <;> cases there
  | @assign branch assigned item before after => exact ⟨after, rfl⟩

/-- An unassigned child leaves the item that the edit restores. -/
theorem reach_of_unassign {branch : BranchPath} {item : Node} {restore : Option Node} {owner : Node}
    (hdocument : document.WellFormed)
    (h : (unassign branch item restore).effect grammar document = some document')
    (hreach : grammar.reach document branch.owner = some owner) :
    grammar.reach document' branch.owner =
      some (owner.set branch.property (.optional false restore)) := by
  obtain ⟨owner', P, P', hreach', htarget, halter, rfl⟩ := effect_eq_some.mp h
  cases hreach.symm.trans hreach'
  cases alter_eq_some.mp halter
  exact Grammar.reach_put hdocument hreach

/-- An edit at a node or below it leaves what an optional child of the node retains, or it assigns
the child. -/
theorem retained_or_assigned {up : Path} {name : String} {owner : Node} {item : Option Node}
    (hdocument : document.WellFormed) (h : edit.effect grammar document = some document')
    (hreach : grammar.reach document up = some owner)
    (hretained : owner.property? name = some (.optional false item))
    (habove : up <+: edit.site.owner) :
    ∃ owner', grammar.reach document' up = some owner' ∧ owner'.kind = owner.kind ∧
      (owner'.property? name = some (.optional false item) ∨
        ∃ after, owner'.property? name = some (.optional true (some after))) := by
  obtain ⟨held, P, P', hheld, htarget, halter, rfl⟩ := effect_eq_some.mp h
  obtain ⟨rest, hrest⟩ := habove
  rw [← hrest] at hheld ⊢
  refine ⟨_, Grammar.reach_put_above hdocument hreach rest, ?_⟩
  cases rest with
  | nil =>
    -- The edit is one of the node: of this property or of another one.
    rw [List.append_nil, hreach] at hheld
    cases hheld
    have hP := property?_target (Grammar.wellFormed_reach hdocument hreach) htarget
    refine ⟨Node.kind_set .., ?_⟩
    rw [Node.put, Node.property?_set]
    split
    · rename_i hname
      rw [← hname, hretained] at hP
      cases hP
      obtain ⟨after, rfl⟩ := assigned_of_alter halter
      exact .inr ⟨after, rfl⟩
    · exact .inl hretained
  | cons step rest =>
    -- The edit is further below, where no path leads through the property.
    have hclosed : ∀ slot, (Property.optional false item).childAt? slot = none := fun slot => by
      cases slot <;> rfl
    obtain ⟨hkind, hkept⟩ := Node.property?_put_below hretained hclosed step rest _
    exact ⟨hkind, .inl hkept⟩

end Edit

namespace Editor

/-! ## Slots that retain a node -/

/-- A state is live and has no node. -/
def Vacates (editor : Editor) (h : Handle) : Prop :=
  (editor.store.get? h).map State.stage = some .vacant

instance (editor : Editor) (h : Handle) : Decidable (editor.Vacates h) :=
  inferInstanceAs (Decidable ((editor.store.get? h).map State.stage = some .vacant))

/-- A state stands in the slot of an optional child that is not assigned and retains a node, which
may stand there. -/
def Retains (editor : Editor) (h : Handle) (node : Node) : Prop :=
  ∃ owner property above, editor.store.place? h = some (.within owner property .optional) ∧
    editor.node? owner = some above ∧
    above.property? property = some (.optional false (some node)) ∧
    editor.grammar.Admits above.kind property node

variable {editor next between : Editor} {ν : Handle → Option Node} {edit : Edit} {h : Handle}
  {node : Node}

/-- A vacant state is live and stands for no node. -/
theorem Vacates.live_and_bare (hmirrors : editor.Mirrors ν) (hvacant : editor.Vacates h) :
    editor.store.Live h ∧ ν h = none := by
  obtain ⟨state, hstate, hstage⟩ := Option.map_eq_some_iff.mp hvacant
  exact ⟨⟨state, hstate⟩, (hmirrors.standing.settled h state hstate
    (Set.notMem_empty h)).vacant_iff.mp hstage⟩

/-- What a slot retains is a matter of the document and the states. -/
theorem Retains.restates (hretains : editor.Retains h node) (hrestates : editor.Restates between) :
    between.Retains h node := by
  obtain ⟨journal, history, rfl⟩ := hrestates
  obtain ⟨owner, property, above, hplace, habove, hretained, hadmits⟩ := hretains
  have habove' := (node?_withRecord editor journal history owner).trans habove
  exact ⟨owner, property, above, hplace, habove', hretained, hadmits⟩

/-- What a slot retains is what the document has at its locus. -/
theorem Retains.exists_locus (hmirrors : editor.Mirrors ν) (hretains : editor.Retains h node) :
    ∃ (path : Path) (property : String) (locus : Locus editor ν ⟨path, property⟩),
      locus.branch = .optional h ∧ locus.property = .optional false (some node) ∧
        editor.grammar.Admits locus.node.kind property node := by
  obtain ⟨owner, property, above, hplace, habove, hretained, hadmits⟩ := hretains
  obtain ⟨path, locus, assigned, item, rfl, hheld, hproperty, -⟩ :=
    exists_optional hmirrors ((stateAt?_iff hmirrors).mpr hplace)
  have hnode : locus.node = above := by
    rw [node?_eq hmirrors locus.climbs.live, locus.label] at habove
    exact Option.some.inj habove
  subst hnode
  rw [locus.property?] at hretained
  exact ⟨path, property, locus, hheld, Option.some.inj hretained, hadmits⟩

/-- A vacant state that stays in the store stays in its slot. -/
theorem place?_of_vacates {ν' : Handle → Option Node} (hmirrors' : next.Mirrors ν')
    (hturns : editor.store.Turns edit ν next.store ν') {owner : Handle} {property : String}
    (hplace : editor.store.place? h = some (.within owner property .optional))
    (hvacant : next.Vacates h) :
    next.store.place? h = some (.within owner property .optional) := by
  obtain ⟨hlive', hnone⟩ := hvacant.live_and_bare hmirrors'
  rcases hturns.places h (Store.live_of_place? hplace) hlive' with
    hsame | ⟨_, _, slot, -, hmoved, hplace'⟩
  · exact hsame.trans hplace
  · cases hplace.symm.trans hmoved
    -- Of all slots only that of an optional child has a state without a node.
    obtain ⟨path, hclimbs⟩ :=
      hmirrors'.standing.rooted _ (hmirrors'.standing.parent_live hplace')
    obtain ⟨locus, -, hslot⟩ := exists_locus_of_place? hmirrors' hclimbs hplace'
    obtain ⟨rfl, -⟩ := locus.reflects.slot_of_none hslot hnone
    exact hplace'

/-- A child with a vacant state is not marked as assigned, or it has no item. -/
theorem not_assigned_of_vacates (hmirrors : editor.Mirrors ν) {owner : Handle} {property : String}
    {above after : Node} (hplace : editor.store.place? h = some (.within owner property .optional))
    (habove : ν owner = some above) (hvacant : editor.Vacates h) :
    above.property? property ≠ some (.optional true (some after)) := by
  intro hread
  obtain ⟨path, locus, assigned, item, rfl, -, hproperty, hlabel⟩ :=
    exists_optional hmirrors ((stateAt?_iff hmirrors).mpr hplace)
  cases habove.symm.trans locus.label
  have hsame := hread.symm.trans (hproperty ▸ locus.property?)
  cases hsame
  rw [(hvacant.live_and_bare hmirrors).2] at hlabel
  cases hlabel

/-- A single edit leaves what a slot retains, unless it assigns the child or removes its state. -/
theorem retains_of_apply (hmirrors : editor.Mirrors ν) (hretains : editor.Retains h node)
    (hedit : edit.WellFormed) (happly : editor.apply edit = .ok next) (hvacant : next.Vacates h) :
    next.Retains h node := by
  obtain ⟨ν', hmirrors', hturns, heffect, hgrammar⟩ := turns_of_apply hmirrors hedit happly
  obtain ⟨path, property, locus, hheld, hproperty, hadmits⟩ := hretains.exists_locus hmirrors
  have hplace : editor.store.place? h = some locus.optionalPlace :=
    locus.stands_iff.mpr (by rw [hheld]; rfl)
  have hplace' := place?_of_vacates hmirrors' hturns hplace hvacant
  have howner := hmirrors'.standing.parent_live hplace'
  have hread := hproperty ▸ locus.property?
  suffices hkept : ∃ above, ν' locus.owner = some above ∧ above.kind = locus.node.kind ∧
      above.property? property = some (.optional false (some node)) by
    obtain ⟨above, habove, hkind, hretained⟩ := hkept
    exact ⟨locus.owner, property, above, hplace', (node?_eq hmirrors' howner).trans habove,
      hretained, by rw [hgrammar, hkind]; exact hadmits⟩
  -- The node of the owner is changed only by edits at it or below it, and by one that toggles it.
  by_cases htouches : edit.Touches path
  · rcases htouches with habove | htoggled
    · have hclimbs' := hturns.climbs_above hmirrors'.standing locus.climbs habove howner
      obtain ⟨above, hreach, hkind, hretained⟩ :=
        Edit.retained_or_assigned hmirrors.wellFormed heffect locus.reach hread habove
      have hlabel : ν' locus.owner = some above := by
        rw [hmirrors'.standing.label_of_climbs hmirrors'.document hclimbs', hgrammar, hreach]
      refine ⟨above, hlabel, hkind, hretained.resolve_right ?_⟩
      rintro ⟨after, hassigned⟩
      exact not_assigned_of_vacates hmirrors' hplace' hlabel hvacant hassigned
    · cases edit with
      | assign branch before after =>
        -- The slot of a child that has no node has no owner in it.
        have hreach := Edit.reach_eq_none_of_assign hmirrors.wellFormed heffect
        rw [← show path = branch.child .optional from htoggled, locus.reach] at hreach
        cases hreach
      | unassign branch item restore =>
        -- The state is below the child that is unassigned, and so it goes.
        have hclimbs : editor.store.Climbs h (Path.child path property .optional) :=
          .within hplace locus.climbs
        refine absurd (hvacant.live_and_bare hmirrors').1 fun hlive => ?_
        refine (hturns.gone h hclimbs.live).mp hlive ⟨_, hclimbs, ?_⟩
        rw [Path.child, show path = branch.child .optional from htoggled]
        exact ⟨List.prefix_append _ _, by simp⟩
      | _ => exact htoggled.elim
  · exact ⟨locus.node, (hturns.labels _ path locus.climbs howner htouches).trans locus.label, rfl,
      hread⟩

/-! ## Unassigning and assigning again -/

/-- Only what stands in the slot of an optional child is unassigned. -/
theorem slot_of_unassign {owner : Handle} {property : String} {slot : Slot}
    {planned : Edit × Option Path}
    (h : editor.plan (.unassign (.within owner property slot)) = .ok planned) :
    slot = .optional := by
  cases slot with
  | optional => rfl
  | _ => cases h

/-- An edit that unassigns a child and restores its node leaves the node to the slot. -/
theorem retains_of_applyUnassign {address : BranchPath} (locus : Locus editor ν address)
    (hheld : locus.branch = .optional h) (hproperty : locus.property = .optional true (some node))
    (hedit : (Edit.unassign address node (some node)).WellFormed)
    (hmade : editor.apply (.unassign address node (some node)) = .ok next) :
    next.Retains h node := by
  have hmirrors := locus.mirrors
  have hadmits : editor.grammar.Admits locus.node.kind address.property node :=
    ((hmirrors.valid.reach hmirrors.wellFormed locus.reach).fits locus.wellFormed.keys
      (hproperty ▸ locus.shaped)).admits .optional node rfl
  obtain ⟨ν', hmirrors', hturns, heffect, hgrammar⟩ := turns_of_apply hmirrors hedit hmade
  obtain ⟨owner, g, htoggles, -, -⟩ :=
    (enacts_of_apply hmade).toggles_unassign hmirrors hmirrors' hturns
  obtain ⟨rfl, rfl⟩ := locus.toggles_eq hheld htoggles
  have hplace' := (stateAt?_iff hmirrors').mp (stateAt?_optional hmirrors' htoggles.left)
  have howner := hmirrors'.standing.parent_live hplace'
  have hclimbs' := hturns.climbs_above hmirrors'.standing locus.climbs List.prefix_rfl howner
  have hlabel' : next.node? locus.owner =
      some (locus.node.set address.property (.optional false (some node))) := by
    rw [node?_eq hmirrors' howner, hmirrors'.standing.label_of_climbs hmirrors'.document hclimbs',
      hgrammar]
    exact Edit.reach_of_unassign hmirrors.wellFormed heffect locus.reach
  refine ⟨locus.owner, address.property, _, hplace', hlabel', ?_, ?_⟩
  · rw [Node.property?_set, if_pos rfl]
  · rw [hgrammar, Node.kind_set]
    exact hadmits

/-- Unassigning a child leaves its node to the slot. -/
theorem retains_of_unassign {after : Editor} {place : Place} {reply : Reply}
    (hsteady : editor.Steady) (hregistered : editor.stateAt? place = some h)
    (hnode : editor.node? h = some node)
    (hperform : editor.perform (.unassign place) = (.ok reply, after)) : after.Retains h node := by
  obtain ⟨ν, hmirrors⟩ := hsteady.sound
  have hplace := (stateAt?_iff hmirrors).mp hregistered
  obtain ⟨edit, refresh, next, hplanned, hedit, hmade, rfl⟩ :=
    committed_of_perform hsteady (fun _ hmem => by cases hmem) hperform
  refine Retains.restates ?_ (restates_recordEdit edit refresh next)
  cases place with
  | root => cases hplanned
  | within owner property slot =>
    obtain rfl := slot_of_unassign hplanned
    obtain ⟨path, locus, assigned, item, rfl, hheld, hproperty, hlabel⟩ :=
      exists_optional hmirrors hregistered
    rw [node?_eq hmirrors (Store.live_of_place? hplace), hlabel] at hnode
    -- Only a child that is assigned has a node, and the command retains it.
    obtain ⟨rfl, rfl⟩ : assigned = true ∧ item = some node := by
      cases assigned with
      | false => cases hnode
      | true => exact ⟨rfl, hnode⟩
    rw [show Place.within locus.owner property .optional = locus.optionalPlace from rfl, plan,
      planUnassign, locus.optionalOf_eq_ok hproperty] at hplanned
    cases hplanned
    exact retains_of_applyUnassign locus hheld hproperty hedit hmade

/-- A slot that retains a node takes it when the child is assigned without one. -/
theorem restores_of_retains (hmirrors : editor.Mirrors ν) (hretains : editor.Retains h node) :
    ∃ state after, editor.store.get? h = some state ∧
      editor.perform (.assign state.place none) = (.ok .done, after) ∧
        after.node? h = some node := by
  obtain ⟨path, property, locus, hheld, hproperty, hadmits⟩ := hretains.exists_locus hmirrors
  obtain ⟨state, hstate, hplace, -⟩ := locus.exists_state .optional
    (locus.childAt?_optional hheld)
  have hmem : node ∈ (Property.optional false (some node)).nodes := List.mem_singleton_self node
  have hnode : node.WellFormed := locus.wellFormed.property (hproperty ▸ locus.property?) hmem
  obtain ⟨after, hperform, -, hlabel⟩ := locus.assign_of_admits hheld hproperty hnode hadmits
  refine ⟨state, after, hstate, ?_, hlabel⟩
  -- Without a node the command plans the edit that it plans with the one that is retained.
  have hsame : editor.plan (.assign locus.optionalPlace none) =
      editor.plan (.assign locus.optionalPlace (some node)) := by
    simp only [plan, planAssign, locus.optionalOf_eq_ok hproperty]
    rfl
  rw [hplace, ← hperform]
  change perform (.assign locus.optionalPlace none) editor = _
  unfold perform
  rw [hsame]
  rfl

/-- An unassigned child is frozen. Whatever is asked of an editor after a child was unassigned, as
long as the state in its slot is live and vacant after every single edit, those of groups that are
made, undone, redone or taken back included, assigning the child without a node goes through at the
place where the state then stands, and the state has the very node that it had. -/
theorem restored_of_runAll {vacated last : Editor} {place : Place} {reply : Reply}
    {requests : List Request} {answers : List (Except Refusal Reply)}
    (hreachable : editor.Reachable) (hregistered : editor.stateAt? place = some h)
    (hnode : editor.node? h = some node)
    (hperform : editor.perform (.unassign place) = (.ok reply, vacated))
    (hrequests : ∀ request ∈ requests, request.WellFormed)
    (hrun : runAll requests vacated = .ok (answers, last))
    (hvacant : ∀ next ∈ passageAll requests vacated, next.Vacates h) :
    ∃ state after, last.store.get? h = some state ∧
      last.perform (.assign state.place none) = (.ok .done, after) ∧
        after.node? h = some node := by
  have hsteady := hreachable.steady
  have hretains := retains_of_unassign hsteady hregistered hnode hperform
  have hunassign : Request.WellFormed (.command (.unassign place)) := fun _ hmem => by cases hmem
  have turn := run_turn hsteady hunassign
  rw [run, hperform] at turn
  have hvacated : vacated.Steady := turn.steady hsteady hunassign fun _ heq => by cases heq
  obtain ⟨⟨ν, hmirrors⟩, hretains'⟩ := keeps_of_runAll
    (p := fun editor => editor.Sound ∧ editor.Retains h node) (q := fun editor => editor.Vacates h)
    (fun hrestates h => ⟨h.1.restates hrestates, h.2.restates hrestates⟩)
    (fun h hedit happly hvacant => h.1.elim fun ν hmirrors =>
      ⟨(turns_of_apply hmirrors hedit happly).imp fun _ => And.left,
        retains_of_apply hmirrors h.2 hedit happly hvacant⟩)
    hvacated hrequests hrun hvacant ⟨hvacated.sound, hretains⟩
  exact restores_of_retains hmirrors hretains'

/-- A document with a list of two items, the first of which has an optional child. -/
def shelf : Node :=
  .mk "Root" [("items", .list [.mk "Holder" [("title", .value (.text "one")),
    ("note", .optional true (some (.mk "Note" [("z", .value (.text "first")),
      ("a", .child (.bare "Inner"))])))], .bare "B"])]

/-- Requests that move the holder of the child about: alone, undone and redone, with an edit in a
batch that is aborted, and in a group of which another edit is refused. -/
def wandering : List Request :=
  [.command (.move (.within ⟨0, 0⟩ "items" (.list 0)) 1), .undo, .redo, .beginBatch none,
    .command (.setValue ⟨1, 0⟩ "title" (.text "two")), .abortBatch,
    .execute (.plain (.move ⟨[], "items"⟩ (.list 1) (-1))
      [.remove ⟨[], "items"⟩ (.list 9) (.bare "B")])]

/-- The child of the holder is unassigned, the holder moved about in seven single edits, and the
child assigned again: it has its node, with the properties in their order. -/
theorem restored_of_wandering : ∃ (start vacated last : Editor) (reply : Reply)
    (answers : List (Except Refusal Reply)) (note : Node),
    start.Reachable ∧ start.stateAt? (.within ⟨1, 0⟩ "note" .optional) = some ⟨2, 0⟩ ∧
      start.node? ⟨2, 0⟩ = some note ∧ Table.keys note.properties = ["z", "a"] ∧
      start.perform (.unassign (.within ⟨1, 0⟩ "note" .optional)) = (.ok reply, vacated) ∧
      runAll wandering vacated = .ok (answers, last) ∧
      (passageAll wandering vacated).length = 7 ∧
      (∀ next ∈ passageAll wandering vacated, next.Vacates ⟨2, 0⟩) ∧
      ∃ state after, last.store.get? ⟨2, 0⟩ = some state ∧
        last.perform (.assign state.place none) = (.ok .done, after) ∧
          after.node? ⟨2, 0⟩ = some note := by
  obtain ⟨start, hstart, htest⟩ := exists_start (d := shelf) (g := .free) (s := .standard)
    (p := fun start =>
      let unassigned := start.perform (.unassign (.within ⟨1, 0⟩ "note" .optional))
      start.stateAt? (.within ⟨1, 0⟩ "note" .optional) = some ⟨2, 0⟩ &&
        (start.node? ⟨2, 0⟩).map (fun note => Table.keys note.properties) = some ["z", "a"] &&
        unassigned.1.toOption.isSome &&
        (runAll wandering unassigned.2).toOption.isSome &&
        (passageAll wandering unassigned.2).length = 7 &&
        (passageAll wandering unassigned.2).all fun next => next.Vacates ⟨2, 0⟩) (by cbv)
  simp only [Bool.and_eq_true, decide_eq_true_eq, List.all_eq_true] at htest
  obtain ⟨⟨⟨⟨⟨hregistered, hkeys⟩, hgranted⟩, hreturned⟩, hlength⟩, hvacant⟩ := htest
  obtain ⟨note, hnote, hkeys⟩ := Option.map_eq_some_iff.mp hkeys
  obtain ⟨reply, hreply⟩ := Option.isSome_iff_exists.mp hgranted
  obtain ⟨⟨answers, last⟩, hrun⟩ := Option.isSome_iff_exists.mp hreturned
  have hperform : start.perform (.unassign (.within ⟨1, 0⟩ "note" .optional)) = (.ok reply,
      (start.perform (.unassign (.within ⟨1, 0⟩ "note" .optional))).2) :=
    Prod.ext (toOption_eq_some.mp hreply) rfl
  have hreachable : start.Reachable :=
    reachable_ofDocument (by decide) Grammar.distinct_free hstart
  exact ⟨start, _, last, reply, answers, note, hreachable, hregistered, hnote, hkeys, hperform,
    toOption_eq_some.mp hrun, hlength, hvacant, restored_of_runAll hreachable hregistered hnote
      hperform (by decide) (toOption_eq_some.mp hrun) hvacant⟩

end Editor

end TreeEditor
