import TreeEditor.Proofs.Conformity
import TreeEditor.Proofs.Breakdowns
import TreeEditor.Proofs.Reports

/-!
# Toggling optional children

An optional slot keeps one state, whether its child is assigned or not. Two things tell which of the
two is the case: the document marks the child as assigned, and the state is ready. A command reads
the mark; the edit that it makes asks for the stage. Both agree when a child that is marked as
assigned has an item, and then the slot can always be toggled: it takes any valid node while it is
not assigned, and can be emptied while it is (`Editor.toggled_of_run`).

A child that is marked as assigned and has no item is neither. Its state is vacant, yet the slot
takes no node, since the child is marked, and cannot be emptied, since there is no item
(`Editor.stuck_of_marked`).
-/

namespace TreeEditor

namespace Editor

variable {editor : Editor} {ν : Handle → Option Node} {address : BranchPath} {h : Handle}
  {assigned : Bool} {item : Option Node}

/-- A command that cannot be planned is refused. -/
theorem perform_of_plan {command : Command} {failure : Failure}
    (h : editor.plan command = .error failure) :
    editor.perform command = (.error failure, editor) := by
  rw [perform, h]

/-- A command whose edit has an effect makes the edit and records it. -/
theorem perform_of_effect (hmirrors : editor.Mirrors ν) {command : Command} {edit : Edit}
    {refresh : Option Path} {document : Node} (hcommand : ∀ node ∈ command.nodes, node.WellFormed)
    (hplanned : editor.plan command = .ok (edit, refresh))
    (heffect : edit.effect editor.grammar editor.document = some document) :
    ∃ next, edit.WellFormed ∧ editor.apply edit = .ok next ∧
      editor.perform command = (.ok (Command.reply command), next.recordEdit edit refresh) := by
  have hedit : edit.WellFormed := fun node hnode =>
    ((plan_grants hmirrors command).of_eq_ok hplanned).nodes _ hmirrors.wellFormed hcommand node
      hnode
  have hanswers := apply_answers hmirrors hedit
  rw [heffect] at hanswers
  obtain ⟨next, hmade, -⟩ := hanswers
  have hnext : next.Sound := (turns_of_apply hmirrors hedit hmade).imp fun _ => And.left
  refine ⟨next, hedit, hmade, ?_⟩
  rw [perform, hplanned]
  dsimp only
  rw [commit, hmade]
  dsimp only
  rw [checked_eq (hnext.recordEdit edit refresh)]

/-- A command finds the address of a property of a live state. -/
theorem branchPathOf_of_climbs {path : Path} (hclimbs : editor.store.Climbs h path)
    (property : String) : editor.branchPathOf h property = .ok ⟨path, property⟩ := by
  rw [branchPathOf, pathOf_eq_ok.mpr hclimbs]
  rfl

/-- A command on an optional child reads its mark and its item from the node of the owner. -/
theorem optionalOf_within (owner : Handle) (property : String) :
    editor.optionalOf (.within owner property .optional) = (do
      let branch ← editor.branchPathOf owner property
      let node ← orRefuse (editor.nodeAt branch.owner)
      return (branch, ← orRefuse (refuseShape (node.optional property)))) :=
  rfl

/-- There is a locus wherever a state stands in a slot. -/
theorem exists_locus_of_place? (hmirrors : editor.Mirrors ν) {parent : Handle} {name : String}
    {slot : Slot} {path : Path} (hparent : editor.store.Climbs parent path)
    (hplace : editor.store.place? h = some (.within parent name slot)) :
    ∃ locus : Locus editor ν ⟨path, name⟩,
      locus.owner = parent ∧ locus.branch.childAt? slot = some h := by
  obtain ⟨branch, hbranch, hslot⟩ := (hmirrors.standing.linked parent hparent.live
    (Set.notMem_empty parent) name slot h).mp hplace
  obtain ⟨locus, howner, rfl⟩ : ∃ locus : Locus editor ν ⟨path, name⟩,
      locus.owner = parent ∧ locus.branch = branch :=
    Locus.exists_of_branch? hmirrors hparent hbranch
  exact ⟨locus, howner, hslot⟩

/-- Where a state is registered for an optional slot the document has an optional property, and the
state stands for its item when it is assigned. -/
theorem exists_optional (hmirrors : editor.Mirrors ν) {owner : Handle} {property : String}
    (hregistered : editor.stateAt? (.within owner property .optional) = some h) :
    ∃ (path : Path) (locus : Locus editor ν ⟨path, property⟩) (assigned : Bool)
      (item : Option Node), locus.owner = owner ∧ locus.branch = .optional h ∧
        locus.property = .optional assigned item ∧ ν h = if assigned then item else none := by
  have hplace := (stateAt?_iff hmirrors).mp hregistered
  obtain ⟨path, hclimbs⟩ :=
    hmirrors.standing.rooted owner (hmirrors.standing.parent_live hplace)
  obtain ⟨locus, rfl, hslot⟩ := exists_locus_of_place? hmirrors hclimbs hplace
  have hreflects := locus.reflects
  generalize hP : locus.property = P at hreflects
  generalize hB : locus.branch = branch at hreflects hslot
  -- No branch of another kind has a child in the slot.
  cases hreflects with
  | @optional assigned item child label =>
    cases hslot
    exact ⟨path, locus, assigned, item, rfl, hB, hP, label⟩
  | _ => cases hslot

end Editor

namespace Locus

variable {editor next : Editor} {ν : Handle → Option Node} {address : BranchPath} {h : Handle}
  {assigned : Bool} {item : Option Node}

/-- The place of the optional slot. -/
def optionalPlace (locus : Locus editor ν address) : Place :=
  .within locus.owner address.property .optional

/-- A command finds the mark and the item of an optional child. -/
theorem optionalOf_eq_ok (locus : Locus editor ν address)
    (hproperty : locus.property = .optional assigned item) :
    editor.optionalOf locus.optionalPlace = .ok (address, assigned, item) := by
  have hread : locus.node.optional address.property = .ok (assigned, item) :=
    Node.optional_eq_ok.mpr (hproperty ▸ locus.property?)
  rw [optionalPlace, Editor.optionalOf_within, Editor.branchPathOf_of_climbs locus.climbs, ok_bind,
    locus.nodeAt_eq_ok, orRefuse_ok, ok_bind, hread]
  rfl

/-- The item of an optional child is the same as itself. -/
theorem sameItem_self (locus : Locus editor ν address)
    (hproperty : locus.property = .optional assigned item) : sameItem item item = true := by
  refine sameItem_refl fun node hnode => ?_
  have hmem : node ∈ (Property.optional assigned item).nodes := hnode
  exact Node.same_refl (locus.wellFormed.property (hproperty ▸ locus.property?) hmem)

/-- The edit of an optional child toggles the state that is in the slot. -/
theorem toggles_eq (locus : Locus editor ν address) (hheld : locus.branch = .optional h)
    {told : Place → Handle → Event} {p : Event → Prop} {owner g : Handle}
    (htoggles : Editor.Toggles editor next address told p owner g) :
    owner = locus.owner ∧ g = h := by
  obtain ⟨_, -, hclimbs, -⟩ :=
    (Editor.readyOwner_answers locus.mirrors address.owner).of_eq_ok htoggles.owns
  obtain rfl := locus.mirrors.standing.climbs_inj hclimbs locus.climbs
  have hsame := htoggles.held
  rw [locus.held, hheld] at hsame
  cases hsame
  exact ⟨rfl, rfl⟩

/-- An optional child that is not marked as assigned can be assigned any node that is admitted. The
state stays in the slot and stands for the node. -/
theorem assign_of_admits (locus : Locus editor ν address) (hheld : locus.branch = .optional h)
    (hproperty : locus.property = .optional false item) {node : Node} (hnode : node.WellFormed)
    (hadmits : editor.grammar.Admits locus.node.kind address.property node) :
    ∃ after, editor.perform (.assign locus.optionalPlace (some node)) = (.ok .done, after) ∧
      after.stateAt? locus.optionalPlace = some h ∧ after.node? h = some node := by
  have hplanned : editor.plan (.assign locus.optionalPlace (some node)) =
      .ok (.assign address item node, none) := by
    rw [Editor.plan, Editor.planAssign, locus.optionalOf_eq_ok hproperty]
    rfl
  -- The planned edit records the item that is there, so its check cannot fail.
  have halter : (Edit.assign address item node).alter
      (Edit.admits editor.grammar locus.node.kind address.property) locus.property =
        some (.optional true (some node)) := by
    rw [hproperty]
    exact Edit.alter_eq_some.mpr
      (.assign rfl (locus.sameItem_self hproperty) (Edit.admits_iff.mpr hadmits))
  obtain ⟨document, heffect⟩ := locus.exists_effect rfl rfl halter
  obtain ⟨next, hedit, hmade, hperform⟩ := Editor.perform_of_effect locus.mirrors
    (fun _ hother => by rwa [List.mem_singleton.mp hother]) hplanned heffect
  obtain ⟨ν', hmirrors', -, heffect', hgrammar⟩ :=
    Editor.turns_of_apply locus.mirrors hedit hmade
  obtain ⟨owner, g, htoggles, -, -, hplaces⟩ :=
    (Editor.enacts_of_apply hmade).toggles_assign locus.mirrors hmirrors' hnode
  obtain ⟨rfl, rfl⟩ := locus.toggles_eq hheld htoggles
  obtain ⟨journal, history, hrecorded⟩ := Editor.recordEdit_eq (.assign address item node) none next
  refine ⟨_, hperform, ?_, ?_⟩
  · rw [hrecorded]
    exact Editor.stateAt?_optional hmirrors' htoggles.left
  · -- The state has its path, and the document has the node there.
    have hclimbs : editor.store.Climbs g (address.child .optional) :=
      locus.climbs_child_iff.mpr (locus.stands_iff.mpr (by rw [hheld]; rfl))
    have hclimbs' := hclimbs.mono hplaces
    rw [hrecorded, Editor.node?_withRecord, Editor.node?_eq hmirrors' hclimbs'.live,
      hmirrors'.standing.label_of_climbs hmirrors'.document hclimbs', hgrammar]
    exact Edit.reach_contents locus.mirrors.wellFormed heffect' List.mem_cons_self

/-- An optional child that is assigned with an item can be unassigned. The state stays in the slot
and is vacant. -/
theorem unassign_of_item (locus : Locus editor ν address) (hheld : locus.branch = .optional h)
    {node : Node} (hproperty : locus.property = .optional true (some node)) :
    ∃ after state, editor.perform (.unassign locus.optionalPlace) = (.ok .done, after) ∧
      after.stateAt? locus.optionalPlace = some h ∧ after.store.get? h = some state ∧
        state.stage = .vacant := by
  have hplanned : editor.plan (.unassign locus.optionalPlace) =
      .ok (.unassign address node (some node), none) := by
    rw [Editor.plan, Editor.planUnassign, locus.optionalOf_eq_ok hproperty]
    rfl
  have halter : (Edit.unassign address node (some node)).alter
      (Edit.admits editor.grammar locus.node.kind address.property) locus.property =
        some (.optional false (some node)) := by
    rw [hproperty]
    have hsame := locus.sameItem_self hproperty
    rw [sameItem_iff] at hsame
    cases hsame with
    | some hsame => exact Edit.alter_eq_some.mpr (.unassign hsame)
  obtain ⟨document, heffect⟩ := locus.exists_effect rfl rfl halter
  obtain ⟨next, hedit, hmade, hperform⟩ := Editor.perform_of_effect locus.mirrors
    (fun _ hother => by cases hother) hplanned heffect
  obtain ⟨ν', hmirrors', hturns, -, -⟩ := Editor.turns_of_apply locus.mirrors hedit hmade
  obtain ⟨owner, g, htoggles, -, hvacant⟩ :=
    (Editor.enacts_of_apply hmade).toggles_unassign locus.mirrors hmirrors' hturns
  obtain ⟨rfl, rfl⟩ := locus.toggles_eq hheld htoggles
  have hregistered := Editor.stateAt?_optional hmirrors' htoggles.left
  obtain ⟨state, hstate⟩ :=
    Store.live_of_place? ((Editor.stateAt?_iff hmirrors').mp hregistered)
  obtain ⟨journal, history, hrecorded⟩ :=
    Editor.recordEdit_eq (.unassign address node (some node)) none next
  refine ⟨_, state, hperform, ?_, ?_, (Editor.node?_eq_none_iff hmirrors' hstate).mp hvacant⟩
  · rw [hrecorded]
    exact hregistered
  · rw [hrecorded]
    exact hstate

end Locus

namespace Editor

variable {editor : Editor} {ν : Handle → Option Node} {address : BranchPath} {h : Handle}
  {place : Place} {stage : Stage}

/-- An optional slot can be toggled: it takes any valid node while its state is vacant, and it can
be emptied while its state is ready. The state stays in the slot. -/
structure Toggleable (editor : Editor) (place : Place) (h : Handle) (stage : Stage) : Prop where
  assign : stage = .vacant → ∀ node : Node, node.WellFormed →
    editor.grammar.validate node = .ok () →
      ∃ after, editor.perform (.assign place (some node)) = (.ok .done, after) ∧
        after.stateAt? place = some h ∧ after.node? h = some node
  unassign : stage = .ready →
    ∃ after state, editor.perform (.unassign place) = (.ok .done, after) ∧
      after.stateAt? place = some h ∧ after.store.get? h = some state ∧ state.stage = .vacant

/-- An optional slot is stuck: it takes no node and cannot be emptied. -/
structure Stuck (editor : Editor) (place : Place) : Prop where
  assign : ∀ node, editor.perform (.assign place node) =
    (.error (.refused (.alreadyAssigned (.place place))), editor)
  unassign : editor.perform (.unassign place) =
    (.error (.refused (.notAssigned (.place place))), editor)

/-- A slot that is marked as assigned and has no item is stuck. -/
theorem stuck_of_unfilled (locus : Locus editor ν address)
    (hproperty : locus.property = .optional true none) : editor.Stuck locus.optionalPlace where
  assign := fun node => perform_of_plan (by
    rw [plan, planAssign, locus.optionalOf_eq_ok hproperty]
    rfl)
  unassign := perform_of_plan (by
    rw [plan, planUnassign, locus.optionalOf_eq_ok hproperty]
    rfl)

/-- The grammar of an editor is the one that it was made with. -/
theorem grammar_of_run {document : Node} {grammar : Grammar} {settings : Settings} {start : Editor}
    {requests : List Request} {answers : List (Except Refusal Reply)}
    (hdocument : document.WellFormed) (hgrammar : grammar.Distinct)
    (hstart : ofDocument document grammar settings = .ok start)
    (hrequests : ∀ request ∈ requests, request.WellFormed)
    (hrun : runAll requests start = .ok (answers, editor)) : editor.grammar = grammar :=
  (grammar_runAll (steady_ofDocument hdocument hgrammar hstart) hrequests hrun).trans
    (mirrors_ofDocument hdocument hgrammar hstart).2.1

/-- A document that a run of filled requests leaves of a filled one is filled. -/
theorem filled_runAll {document : Node} {grammar : Grammar} {settings : Settings} {start : Editor}
    {requests : List Request} {answers : List (Except Refusal Reply)}
    (hdocument : document.WellFormed) (hgrammar : grammar.Distinct)
    (hstart : ofDocument document grammar settings = .ok start)
    (hrequests : ∀ request ∈ requests, request.WellFormed)
    (hrun : runAll requests start = .ok (answers, editor)) (hfilled : document.Filled)
    (hcarried : ∀ request ∈ requests, request.Filled) : editor.document.Filled :=
  (runAll_induct (p := Full) (q := Request.Filled)
    (fun _ _ answer _ hsteady hfull hwell hfilled turn =>
      turn.full hsteady hfull hwell hfilled (mapError_ne_broken answer))
    (steady_ofDocument hdocument hgrammar hstart)
    (full_ofDocument hdocument hfilled hgrammar hstart)
    (fun request hmem => ⟨hrequests request hmem, hcarried request hmem⟩) hrun).2.document

/-- After any run under the free grammar, a state in an optional slot is ready when the document
marks the child as assigned and has an item for it, and is vacant otherwise. When a marked child has
an item the slot can be toggled, and else it is stuck. A document that was filled, and into which
only filled nodes were brought, has an item for every marked child. -/
theorem toggled_of_run {document : Node} {settings : Settings} {start : Editor}
    {requests : List Request} {answers : List (Except Refusal Reply)} {owner : Handle}
    {property : String} (hdocument : document.WellFormed)
    (hstart : ofDocument document .free settings = .ok start)
    (hrequests : ∀ request ∈ requests, request.WellFormed)
    (hrun : runAll requests start = .ok (answers, editor))
    (hregistered : editor.stateAt? (.within owner property .optional) = some h) :
    ∃ (node : Node) (assigned : Bool) (item : Option Node) (state : State),
      editor.node? owner = some node ∧ node.property? property = some (.optional assigned item) ∧
        editor.store.get? h = some state ∧
        state.stage = (if assigned && item.isSome then .ready else .vacant) ∧
        ((assigned = true → item.isSome) →
          editor.Toggleable (.within owner property .optional) h state.stage) ∧
        (¬ (assigned = true → item.isSome) → editor.Stuck (.within owner property .optional)) ∧
        (document.Filled → (∀ request ∈ requests, request.Filled) →
          assigned = true → item.isSome) := by
  have hgrammar := Grammar.distinct_free
  have hfree := grammar_of_run hdocument hgrammar hstart hrequests hrun
  obtain ⟨ν, hmirrors⟩ :=
    (steady_runAll (steady_ofDocument hdocument hgrammar hstart) hrequests hrun).sound
  obtain ⟨path, locus, assigned, item, rfl, hheld, hproperty, hlabel⟩ :=
    exists_optional hmirrors hregistered
  obtain ⟨state, hstate, -, hsettled⟩ := locus.exists_state .optional
    (locus.childAt?_optional hheld)
  -- The stage follows from the node that the state stands for: the item of a marked child.
  have hstage : state.stage = if assigned && item.isSome then .ready else .vacant := by
    rw [hlabel] at hsettled
    cases assigned with
    | false => exact hsettled.vacant_iff.mpr rfl
    | true =>
      cases item with
      | none => exact hsettled.vacant_iff.mpr rfl
      | some node => exact hsettled.stage_iff.mpr rfl
  have hread : locus.node.property? property = some (.optional assigned item) :=
    hproperty ▸ locus.property?
  refine ⟨locus.node, assigned, item, state, ?_, hread, hstate, hstage,
    fun hitem => ⟨fun hvacant node hnode hvalid => ?_, fun hready => ?_⟩, fun hmarked => ?_,
    fun hfilled hcarried hassigned => ?_⟩
  · rw [node?_eq hmirrors locus.climbs.live, locus.label]
  · -- A child that is marked has an item, and then the state would be ready.
    cases assigned with
    | true =>
      rw [hitem rfl] at hstage
      rw [hvacant] at hstage
      cases hstage
    | false =>
      refine locus.assign_of_admits hheld hproperty hnode ⟨?_, hvalid⟩
      rw [hfree]
      rfl
  · rw [hready] at hstage
    cases assigned with
    | false => cases hstage
    | true =>
      cases item with
      | none => cases hstage
      | some node => exact locus.unassign_of_item hheld hproperty
  · cases assigned with
    | false => exact absurd nofun hmarked
    | true =>
      cases item with
      | none => exact stuck_of_unfilled locus hproperty
      | some node => exact absurd (fun _ => rfl) hmarked
  · have hfull := filled_runAll hdocument hgrammar hstart hrequests hrun hfilled hcarried
    have hhere := (Grammar.everywhere_reach hmirrors.wellFormed hfull locus.reach).here
      (property, .optional assigned item) (Table.mem_of_get? hread)
    rw [hassigned] at hhere
    exact Option.isSome_iff_ne_none.mpr fun hnone => hhere (by rw [hnone])

/-- A run after which both optional children of the sample document have been toggled. -/
def togglingRun : List Request :=
  [.command (.unassign (.within ⟨0, 0⟩ "more" .optional)), .undo,
    .command (.assign (.within ⟨0, 0⟩ "extra" .optional) none), .undo]

/-- After such a run one of the slots is emptied, and the other one takes a node. -/
theorem toggled_of_togglingRun : Node.sample.WellFormed ∧
    (∀ request ∈ togglingRun, request.WellFormed) ∧
    ∃ (start editor : Editor) (answers : List (Except Refusal Reply)) (extra more : Handle),
      ofDocument .sample .free .standard = .ok start ∧
      runAll togglingRun start = .ok (answers, editor) ∧
      editor.stateAt? (.within ⟨0, 0⟩ "extra" .optional) = some extra ∧
      editor.stateAt? (.within ⟨0, 0⟩ "more" .optional) = some more ∧
      (∃ after, editor.perform (.assign (.within ⟨0, 0⟩ "extra" .optional) (some (.bare "N"))) =
        (.ok .done, after) ∧ after.node? extra = some (.bare "N")) ∧
      ∃ after, editor.perform (.unassign (.within ⟨0, 0⟩ "more" .optional)) = (.ok .done, after) ∧
        after.stateAt? (.within ⟨0, 0⟩ "more" .optional) = some more := by
  have hrequests : ∀ request ∈ togglingRun, request.WellFormed := by decide
  obtain ⟨start, hstart, htest⟩ := exists_start (d := .sample) (g := .free) (s := .standard)
    (p := fun start => match runAll togglingRun start with
      | .error _ => false
      | .ok (_, editor) =>
        editor.stateAt? (.within ⟨0, 0⟩ "extra" .optional) = some ⟨4, 0⟩ &&
        editor.stateAt? (.within ⟨0, 0⟩ "more" .optional) = some ⟨5, 0⟩ &&
        (editor.store.get? ⟨4, 0⟩).map State.stage = some .vacant &&
        (editor.store.get? ⟨5, 0⟩).map State.stage = some .ready) (by cbv)
  split at htest
  · cases htest
  · rename_i answers editor hrun
    simp only [Bool.and_eq_true, decide_eq_true_eq] at htest
    obtain ⟨⟨⟨hextra, hmore⟩, hvacant⟩, hready⟩ := htest
    have hfree : editor.grammar = .free := grammar_of_run Node.wellFormed_sample
      Grammar.distinct_free hstart hrequests hrun
    obtain ⟨_, _, _, state, -, -, hstate, -, htoggles, -, hfilled⟩ :=
      toggled_of_run Node.wellFormed_sample hstart hrequests hrun hextra
    obtain ⟨_, _, _, state', -, -, hstate', -, htoggles', -, hfilled'⟩ :=
      toggled_of_run Node.wellFormed_sample hstart hrequests hrun hmore
    rw [hstate, Option.map_some, Option.some.injEq] at hvacant
    rw [hstate', Option.map_some, Option.some.injEq] at hready
    obtain ⟨after, hperform, -, hnode⟩ := (htoggles (hfilled (by decide) (by decide))).assign
      hvacant (.bare "N") (Node.wellFormed_bare "N") (by rw [hfree]; rfl)
    obtain ⟨after', _, hperform', hregistered', -⟩ :=
      (htoggles' (hfilled' (by decide) (by decide))).unassign hready
    exact ⟨Node.wellFormed_sample, hrequests, start, editor, answers, _, _, hstart, hrun, hextra,
      hmore, ⟨after, hperform, hnode⟩, after', hperform', hregistered'⟩

/-- A document with an optional child that is marked as assigned and has no item. -/
def marked : Node := .mk "Root" [("o", .optional true none)]

/-- The state in the slot of such a child is vacant, and the slot takes no node. -/
theorem stuck_of_marked : ∃ (start : Editor) (state : State),
    ofDocument marked .free .standard = .ok start ∧
      start.stateAt? (.within ⟨0, 0⟩ "o" .optional) = some ⟨1, 0⟩ ∧
      start.store.get? ⟨1, 0⟩ = some state ∧ state.stage = .vacant ∧
      Grammar.free.validate (.bare "x") = .ok () ∧
      start.perform (.assign (.within ⟨0, 0⟩ "o" .optional) (some (.bare "x"))) =
        (.error (.refused (.alreadyAssigned (.place (.within ⟨0, 0⟩ "o" .optional)))), start) := by
  obtain ⟨start, hstart, htest⟩ := exists_start (d := marked) (g := .free) (s := .standard)
    (p := fun start => start.stateAt? (.within ⟨0, 0⟩ "o" .optional) = some ⟨1, 0⟩ &&
      (start.store.get? ⟨1, 0⟩).map State.stage = some .vacant &&
      match start.plan (.assign (.within ⟨0, 0⟩ "o" .optional) (some (.bare "x"))) with
      | .error (.refused reason) =>
        reason = .alreadyAssigned (.place (.within ⟨0, 0⟩ "o" .optional))
      | _ => false) (by cbv)
  simp only [Bool.and_eq_true, decide_eq_true_eq] at htest
  obtain ⟨⟨hregistered, hvacant⟩, hrefused⟩ := htest
  obtain ⟨state, hstate, hstage⟩ := Option.map_eq_some_iff.mp hvacant
  split at hrefused
  · rename_i reason hplanned
    rw [of_decide_eq_true hrefused] at hplanned
    exact ⟨start, state, hstart, hregistered, hstate, hstage, rfl, perform_of_plan hplanned⟩
  · cases hrefused

end Editor

end TreeEditor
