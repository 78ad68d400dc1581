import TreeEditor.Proofs.Toggling
import TreeEditor.Proofs.Truth

/-!
# Paths through states and through the document

A path is followed in two ways: through the branches of the states, to a handle, and through the
properties of the document, to a node. Under the free grammar the two agree for every editor that a
run leaves and for every path, whatever names and slots it has (`Editor.agrees_of_reachable`): where
the document has a node there is a ready state of it, and beyond that there are only the vacant
states of the slots of optional children without an item. A declared grammar passes over properties
that it does not know, so there the states lead to nodes of the document, but not to all.
-/

namespace TreeEditor

namespace Grammar

variable {node child found : Node} {name : String} {P : Property Node} {path : Path}

/-- The free grammar takes every property with children. -/
theorem branch?_free (hnode : node.WellFormed) : free.branch? node name = some P ↔
    node.property? name = some P ∧ P.kind.bearsChildren := by
  have hfound : ∃ found, free.branches node = .ok found := ⟨_, rfl⟩
  rw [branch?_eq_some hnode.keys, and_iff_right hfound]
  exact and_congr_right fun _ => and_iff_left trivial

/-- Every step of the descent is one through a property with children. -/
theorem stepTo_free (hnode : node.WellFormed) {step : Step} :
    free.stepTo node step = some child ↔ node.step step = .ok child := by
  rw [stepTo_eq_some, Node.step_eq_ok]
  refine exists_congr fun P => ?_
  rw [branch?_free hnode, and_assoc]
  refine and_congr_right fun _ => and_iff_right_of_imp fun hchild => ?_
  cases P with
  | value leaf => cases hchild
  | _ => rfl

/-- Through the free grammar everything is reached that the descent finds. -/
theorem reach_free (hnode : node.WellFormed) :
    free.reach node path = some found ↔ node.descend path = .ok found := by
  induction path generalizing node with
  | nil => simp [reach, Node.descend]
  | cons step rest ih =>
    rw [reach, Node.descend, Option.bind_eq_some_iff, bind_eq_ok]
    refine exists_congr fun child => ?_
    rw [← stepTo_free hnode]
    exact and_congr_right fun hstep => ih (everywhere_stepTo hnode hnode hstep)

end Grammar

namespace Editor

variable {editor : Editor} {ν : Handle → Option Node} {h : Handle} {path : Path} {node : Node}

/-- The states and the document agree about a path. -/
structure Agrees (editor : Editor) (path : Path) : Prop where
  /-- The document has a node where the states have a ready one. -/
  nodeAt_iff : (∃ node, editor.nodeAt path = .ok node) ↔ ∃ h state,
    editor.resolve path = .ok h ∧ editor.store.get? h = some state ∧ state.stage = .ready
  /-- The node is that of the state. -/
  node?_eq : ∀ node h, editor.nodeAt path = .ok node → editor.resolve path = .ok h →
    editor.node? h = some node
  /-- Where there is a state but no node, the path ends in the slot of an optional child of a node,
  and no item is assigned there. -/
  missing_iff : ((∃ h, editor.resolve path = .ok h) ∧
      ∃ reason, editor.nodeAt path = .error reason) ↔
    ∃ up owner name assigned item, path = up ++ [⟨name, .optional⟩] ∧
      editor.nodeAt up = .ok owner ∧ owner.property? name = some (.optional assigned item) ∧
        (if assigned then item else none) = none
  /-- The state there is vacant. -/
  vacant : ∀ h reason, editor.resolve path = .ok h → editor.nodeAt path = .error reason →
    ∃ state, editor.store.get? h = some state ∧ state.stage = .vacant

/-- Below a node the slot of an optional child without an item is no node. -/
theorem nodeAt_ne_ok {owner : Node} {name : String} {assigned : Bool} {item : Option Node}
    (howner : editor.nodeAt path = .ok owner)
    (hproperty : owner.property? name = some (.optional assigned item))
    (hnone : (if assigned then item else none) = none) :
    editor.nodeAt (path ++ [⟨name, .optional⟩]) ≠ .ok node := by
  intro hnode
  rw [nodeAt, Node.descend_append, ← nodeAt, howner, ok_bind, Node.descend, bind_eq_ok] at hnode
  obtain ⟨child, hstep, -⟩ := hnode
  obtain ⟨P, hP, hchild⟩ := Node.step_eq_ok.mp hstep
  rw [hproperty] at hP
  cases hP
  cases assigned with
  | false => cases hchild
  | true => cases hnone.symm.trans hchild

/-- Under the free grammar the state of a path has the node that the document has there. -/
theorem node?_of_climbs (hmirrors : editor.Mirrors ν) (hfree : editor.grammar = .free)
    (hclimbs : editor.store.Climbs h path) :
    editor.node? h = some node ↔ editor.nodeAt path = .ok node := by
  rw [node?_eq hmirrors hclimbs.live, hmirrors.standing.label_of_climbs hmirrors.document hclimbs,
    hfree, Grammar.reach_free hmirrors.wellFormed, nodeAt]

/-- Under the free grammar a path leads to a state without a node where the document has none. -/
theorem node?_eq_none_of_climbs (hmirrors : editor.Mirrors ν) (hfree : editor.grammar = .free)
    (hclimbs : editor.store.Climbs h path) :
    editor.node? h = none ↔ ∃ reason, editor.nodeAt path = .error reason := by
  rw [Option.eq_none_iff_forall_ne_some]
  simp only [ne_eq, node?_of_climbs hmirrors hfree hclimbs]
  cases editor.nodeAt path <;> simp

/-- Under the free grammar states and document agree. -/
theorem Mirrors.agrees (hmirrors : editor.Mirrors ν) (hfree : editor.grammar = .free)
    (path : Path) : editor.Agrees path where
  nodeAt_iff := by
    constructor
    · rintro ⟨node, hnode⟩
      have hreach := (Grammar.reach_free hmirrors.wellFormed).mpr hnode
      rw [← hfree] at hreach
      obtain ⟨h, hclimbs, -⟩ := hmirrors.standing.climbs_of_reach hmirrors.document hreach
      obtain ⟨state, hstate⟩ := hclimbs.live
      refine ⟨h, state, (resolve_eq_ok hmirrors).mpr hclimbs, hstate, ?_⟩
      rw [← isSome_node?_iff hmirrors hstate, (node?_of_climbs hmirrors hfree hclimbs).mpr hnode]
      rfl
    · rintro ⟨h, state, hresolve, hstate, hready⟩
      obtain ⟨node, hnode⟩ :=
        Option.isSome_iff_exists.mp ((isSome_node?_iff hmirrors hstate).mpr hready)
      exact ⟨node,
        (node?_of_climbs hmirrors hfree ((resolve_eq_ok hmirrors).mp hresolve)).mp hnode⟩
  node?_eq node h hnode hresolve :=
    (node?_of_climbs hmirrors hfree ((resolve_eq_ok hmirrors).mp hresolve)).mpr hnode
  missing_iff := by
    constructor
    · rintro ⟨⟨h, hresolve⟩, reason, hreason⟩
      have hclimbs := (resolve_eq_ok hmirrors).mp hresolve
      -- A state whose path the document lacks is that of an optional child without an item.
      rcases hmirrors.climbs_iff.mp ⟨h, hclimbs⟩ with
        ⟨node, hreach⟩ | ⟨owner, name, assigned, item, up, rfl, hreach, hbranch, hnone⟩
      · rw [nodeAt, Grammar.descend_of_reach hmirrors.wellFormed hreach] at hreason
        cases hreason
      · have howner := Grammar.wellFormed_reach hmirrors.wellFormed hreach
        exact ⟨up, owner, name, assigned, item, rfl,
          Grammar.descend_of_reach hmirrors.wellFormed hreach,
          Grammar.property?_of_branch? howner.keys hbranch, hnone⟩
    · rintro ⟨up, owner, name, assigned, item, rfl, howner, hproperty, hnone⟩
      have hreach := (Grammar.reach_free hmirrors.wellFormed).mpr howner
      have hbranch := (Grammar.branch?_free (Grammar.wellFormed_reach hmirrors.wellFormed
        hreach)).mpr ⟨hproperty, rfl⟩
      rw [← hfree] at hreach hbranch
      obtain ⟨h, hclimbs⟩ := hmirrors.climbs_iff.mpr
        (.inr ⟨owner, name, assigned, item, up, rfl, hreach, hbranch, hnone⟩)
      refine ⟨⟨h, (resolve_eq_ok hmirrors).mpr hclimbs⟩, ?_⟩
      cases hnode : editor.nodeAt (up ++ [⟨name, .optional⟩]) with
      | ok node => exact absurd hnode (nodeAt_ne_ok howner hproperty hnone)
      | error reason => exact ⟨reason, rfl⟩
  vacant h reason hresolve hreason := by
    have hclimbs := (resolve_eq_ok hmirrors).mp hresolve
    obtain ⟨state, hstate⟩ := hclimbs.live
    exact ⟨state, hstate, (node?_eq_none_iff hmirrors hstate).mp
      ((node?_eq_none_of_climbs hmirrors hfree hclimbs).mpr ⟨reason, hreason⟩)⟩

/-- Under every grammar the document has a node where the states have a ready one. -/
theorem exists_nodeAt_of_ready (hmirrors : editor.Mirrors ν)
    (hresolve : editor.resolve path = .ok h) {state : State}
    (hstate : editor.store.get? h = some state) (hready : state.stage = .ready) :
    ∃ node, editor.nodeAt path = .ok node := by
  have hclimbs := (resolve_eq_ok hmirrors).mp hresolve
  obtain ⟨node, hnode⟩ :=
    Option.isSome_iff_exists.mp ((isSome_node?_iff hmirrors hstate).mpr hready)
  rw [node?_eq hmirrors hclimbs.live,
    hmirrors.standing.label_of_climbs hmirrors.document hclimbs] at hnode
  exact ⟨node, Grammar.descend_of_reach hmirrors.wellFormed hnode⟩

/-- Whatever was asked of an editor before, its states and its document agree about every path:
under the free grammar the document has a node exactly where the states have a ready one, of which
it is the node, and the only other states are the vacant ones in the slots of optional children
without an item. Under a declared grammar that names no property twice for a kind of node, the
document has a node at least where the states have a ready one. -/
theorem agrees_of_reachable (h : editor.Reachable) :
    (editor.grammar = .free → ∀ path, editor.Agrees path) ∧
      ∀ path h state, editor.resolve path = .ok h → editor.store.get? h = some state →
        state.stage = .ready → ∃ node, editor.nodeAt path = .ok node := by
  obtain ⟨ν, hmirrors⟩ := h.steady.sound
  exact ⟨hmirrors.agrees, fun path h state hresolve hstate hready =>
    exists_nodeAt_of_ready hmirrors hresolve hstate hready⟩

/-- A run in which the item of an optional child is put aside. -/
def settingAside : List Request := [.command (.unassign (.within ⟨0, 0⟩ "more" .optional))]

/-- After such a run the states and the document agree about every path: that of the slot leads to
a vacant state and to no node, that of a value to neither, and that of a list item to both. -/
theorem agrees_settingAside : ∃ editor : Editor, editor.Reachable ∧
    (∀ path, editor.Agrees path) ∧
    (editor.resolve [⟨"more", .optional⟩]).toOption = some ⟨5, 0⟩ ∧
    (editor.nodeAt [⟨"more", .optional⟩]).toOption.isNone ∧
    (editor.resolve [⟨"title", .placeholder⟩]).toOption.isNone ∧
    (editor.nodeAt [⟨"items", .list 1⟩]).toOption.map Node.kind = some "B" := by
  have hrequests : ∀ request ∈ settingAside, request.WellFormed := by decide
  obtain ⟨start, hstart, htest⟩ := exists_start (d := .sample) (g := .free) (s := .standard)
    (p := fun start => match runAll settingAside start with
      | .error _ => false
      | .ok (_, last) =>
        (last.resolve [⟨"more", .optional⟩]).toOption = some ⟨5, 0⟩ &&
        (last.nodeAt [⟨"more", .optional⟩]).toOption.isNone &&
        (last.resolve [⟨"title", .placeholder⟩]).toOption.isNone &&
        (last.nodeAt [⟨"items", .list 1⟩]).toOption.map Node.kind = some "B") (by cbv)
  split at htest
  · cases htest
  · rename_i answers last hrun
    simp only [Bool.and_eq_true, decide_eq_true_eq] at htest
    obtain ⟨⟨⟨hmore, hnone⟩, htitle⟩, hitem⟩ := htest
    have hfree : last.grammar = .free := grammar_of_run Node.wellFormed_sample
      Grammar.distinct_free hstart hrequests hrun
    have hreachable : last.Reachable := ⟨.sample, .free, .standard, start, settingAside, answers,
      Node.wellFormed_sample, Grammar.distinct_free, hstart, hrequests, hrun⟩
    exact ⟨last, hreachable, (agrees_of_reachable hreachable).1 hfree, hmore, hnone, htitle, hitem⟩

end Editor

end TreeEditor
