import TreeEditor.Proofs.Standing
import TreeEditor.Editor.Basic

/-!
# The paths of states

When no state is open the ways up from the states are the paths of the document: the label of a
state is what the document has at its path (`Standing.label_of_climbs`), no two states have the same
path (`Standing.climbs_inj`), and every path of the document is that of a state
(`Standing.climbs_of_reach`). So what an editor finds by going up from a state and what it finds by
going down a path agree (`Editor.pathOf_eq_ok`, `Editor.resolve_eq_ok`).
-/

namespace TreeEditor

namespace Standing

variable {grammar : Grammar} {root g h : Handle} {σ : Store} {ν : Handle → Option Node}
  {U : Set Handle} {document node : Node} {path : Path} {name : String}

/-- What holds a child stands for a node. -/
theorem isSome_of_place? (hσ : Standing grammar root σ ν ∅ U) {slot : Slot}
    (hplace : σ.place? g = some (.within h name slot)) : ∃ node, ν h = some node := by
  obtain ⟨state, hstate⟩ := hσ.parent_live hplace
  obtain ⟨branch, hbranch, -⟩ := (hσ.linked h ⟨state, hstate⟩ (Set.notMem_empty h) name slot g).mp
    hplace
  have hsettled := hσ.settled h state hstate (Set.notMem_empty h)
  rw [Store.branch?, hstate, Option.bind_some] at hbranch
  generalize ν h = item at hsettled
  cases hsettled with
  | vacant _ branches =>
    rw [branches] at hbranch
    cases hbranch
  | @ready node => exact ⟨node, rfl⟩

/-- What a state has under a name reflects what its node has there. -/
theorem rel_branch? (hσ : Standing grammar root σ ν ∅ U) (hlive : σ.Live h)
    (hnode : ν h = some node) (name : String) :
    Option.Rel (Reflects ν) (grammar.branch? node name) (σ.branch? h name) := by
  obtain ⟨state, hstate⟩ := hlive
  have hsettled := hσ.settled h state hstate (Set.notMem_empty h)
  rw [hnode] at hsettled
  rw [Store.branch?, hstate, Option.bind_some]
  exact hsettled.rel name

/-- A state without a node is vacant and has no branches. -/
theorem vacant_of_label (hσ : Standing grammar root σ ν ∅ U) (hlive : σ.Live h)
    (hnone : ν h = none) :
    σ.stage? h = some .vacant ∧ ∀ name, σ.branch? h name = none := by
  obtain ⟨state, hstate⟩ := hlive
  have hsettled := hσ.settled h state hstate (Set.notMem_empty h)
  rw [hnone] at hsettled
  cases hsettled with
  | vacant stage branches =>
    refine ⟨by rw [Store.stage?, hstate, Option.map_some, stage], fun name => ?_⟩
    rw [Store.branch?, hstate, Option.bind_some, branches]
    rfl

/-- A state of a node is ready. -/
theorem ready_of_label (hσ : Standing grammar root σ ν ∅ U) (hlive : σ.Live h)
    (hnode : ν h = some node) : σ.stage? h = some .ready := by
  obtain ⟨state, hstate⟩ := hlive
  have hsettled := hσ.settled h state hstate (Set.notMem_empty h)
  rw [hnode] at hsettled
  rw [Store.stage?, hstate, Option.map_some, hsettled.stage_eq]

/-- The label of a state in a slot is what the node of its parent has there. -/
theorem label_of_place? (hσ : Standing grammar root σ ν ∅ U) {slot : Slot}
    (hplace : σ.place? g = some (.within h name slot)) (hnode : ν h = some node) :
    ν g = grammar.stepTo node ⟨name, slot⟩ := by
  have hlive := hσ.parent_live hplace
  obtain ⟨branch, hbranch, hchild⟩ :=
    (hσ.linked h hlive (Set.notMem_empty h) name slot g).mp hplace
  have hrel := hσ.rel_branch? hlive hnode name
  rw [hbranch, rel_some_right] at hrel
  obtain ⟨P, hP, hreflects⟩ := hrel
  rw [hreflects.label_eq hchild, Grammar.stepTo, hP, Option.bind_some]

/-- The label of a state is what the document has at its path. -/
theorem label_of_climbs (hσ : Standing grammar root σ ν ∅ U) (hroot : ν root = some document)
    (hclimbs : σ.Climbs h path) : ν h = grammar.reach document path := by
  induction hclimbs with
  | root hplace =>
    rw [(hσ.root_iff _).mp hplace, hroot]
    rfl
  | within hplace up ih =>
    obtain ⟨node, hnode⟩ := hσ.isSome_of_place? hplace
    rw [hσ.label_of_place? hplace hnode, Grammar.reach_append, ← ih, hnode, Option.bind_some,
      Grammar.reach_singleton]

/-- Two states in the same slot are the same. -/
theorem place?_inj (hσ : Standing grammar root σ ν ∅ U) {place : Place}
    (hg : σ.place? g = some place) (hh : σ.place? h = some place) : g = h := by
  cases place with
  | root => rw [(hσ.root_iff g).mp hg, (hσ.root_iff h).mp hh]
  | within parent name slot =>
    have hlinked := hσ.linked parent (hσ.parent_live hg) (Set.notMem_empty parent) name slot
    obtain ⟨branch, hbranch, hchild⟩ := (hlinked g).mp hg
    obtain ⟨branch', hbranch', hchild'⟩ := (hlinked h).mp hh
    rw [hbranch] at hbranch'
    cases hbranch'
    exact Option.some.inj (hchild.symm.trans hchild')

/-- No two states have the same path. -/
theorem climbs_inj (hσ : Standing grammar root σ ν ∅ U) (hg : σ.Climbs g path)
    (hh : σ.Climbs h path) : g = h := by
  induction hg generalizing h with
  | root hplace => exact hσ.place?_inj hplace (Store.climbs_nil.mp hh)
  | within hplace up ih =>
    obtain ⟨parent, hplace', hup⟩ := Store.climbs_append_singleton.mp hh
    obtain rfl := ih hup
    exact hσ.place?_inj hplace hplace'

/-- The root has the path without steps. -/
theorem climbs_root (hσ : Standing grammar root σ ν ∅ U) : σ.Climbs root [] :=
  .root ((hσ.root_iff root).mpr rfl)

/-- What has the path that leads on into a slot of a state stands in that slot. -/
theorem climbs_within_iff (hσ : Standing grammar root σ ν ∅ U) (hclimbs : σ.Climbs h path)
    {slot : Slot} : σ.Climbs g (path ++ [⟨name, slot⟩]) ↔
      σ.place? g = some (.within h name slot) := by
  rw [Store.climbs_append_singleton]
  constructor
  · rintro ⟨parent, hplace, hup⟩
    rwa [← hσ.climbs_inj hup hclimbs]
  · exact fun hplace => ⟨h, hplace, hclimbs⟩

/-- What has the path that leads on into a slot of a state is what a branch of it holds there. -/
theorem climbs_child_iff (hσ : Standing grammar root σ ν ∅ U) (hclimbs : σ.Climbs h path)
    {slot : Slot} : σ.Climbs g (path ++ [⟨name, slot⟩]) ↔
      ∃ branch, σ.branch? h name = some branch ∧ branch.childAt? slot = some g := by
  rw [hσ.climbs_within_iff hclimbs,
    hσ.linked h hclimbs.live (Set.notMem_empty h) name slot g]

/-- What a branch of a state holds in a slot has the path that leads on to it. -/
theorem climbs_child (hσ : Standing grammar root σ ν ∅ U) (hclimbs : σ.Climbs h path)
    {branch : Branch} (hbranch : σ.branch? h name = some branch) {slot : Slot}
    (hchild : branch.childAt? slot = some g) : σ.Climbs g (path ++ [⟨name, slot⟩]) :=
  (hσ.climbs_child_iff hclimbs).mpr ⟨branch, hbranch, hchild⟩

/-- Every path of the document is that of a state. -/
theorem climbs_of_reach (hσ : Standing grammar root σ ν ∅ U) (hroot : ν root = some document)
    (hreach : grammar.reach document path = some node) :
    ∃ h, σ.Climbs h path ∧ ν h = some node := by
  induction path using List.reverseRecOn generalizing node with
  | nil =>
    cases hreach
    exact ⟨root, hσ.climbs_root, hroot⟩
  | append_singleton path step ih =>
    rw [Grammar.reach_append, Option.bind_eq_some_iff] at hreach
    obtain ⟨above, habove, hstep⟩ := hreach
    rw [Grammar.reach_singleton, Grammar.stepTo_eq_some] at hstep
    obtain ⟨P, hP, hchild⟩ := hstep
    obtain ⟨h, hclimbs, hlabel⟩ := ih habove
    have hrel := hσ.rel_branch? hclimbs.live hlabel step.property
    rw [hP, rel_some_left] at hrel
    obtain ⟨branch, hbranch, hreflects⟩ := hrel
    obtain ⟨child, hheld, hnode⟩ := hreflects.exists_child hchild
    exact ⟨child, hσ.climbs_child hclimbs hbranch hheld, hnode⟩

/-- One state is met on the way up from another one when its path leads on to that. -/
theorem under_iff (hσ : Standing grammar root σ ν ∅ U) {path' : Path} (hh : σ.Climbs h path)
    (hg : σ.Climbs g path') : σ.Under h g ↔ path <+: path' := by
  constructor
  · intro hunder
    obtain ⟨up, rest, hup, rfl⟩ := hunder.climbs hg
    rw [hh.unique hup]
    exact List.prefix_append up rest
  · rintro ⟨rest, rfl⟩
    obtain ⟨h', hh', hunder⟩ := hg.above
    rwa [hσ.climbs_inj hh hh']

/-- What is below a state has a path that leads on from it. -/
theorem under_iff_exists (hσ : Standing grammar root σ ν ∅ U) (hh : σ.Climbs h path)
    (hlive : σ.Live g) : σ.Under h g ↔ ∃ path', σ.Climbs g path' ∧ path <+: path' := by
  obtain ⟨path', hg⟩ := hσ.rooted g hlive
  rw [hσ.under_iff hh hg]
  constructor
  · exact fun hprefix => ⟨path', hg, hprefix⟩
  · rintro ⟨path'', hg', hprefix⟩
    rwa [hg.unique hg']

/-- A state is above another one when its path is the beginning of that of the other one. -/
theorem under_iff_above (hσ : Standing grammar root σ ν ∅ U) (hg : σ.Climbs g path) :
    σ.Under h g ↔ ∃ up, σ.Climbs h up ∧ up <+: path := by
  constructor
  · intro hunder
    obtain ⟨up, rest, hup, rfl⟩ := hunder.climbs hg
    exact ⟨up, hup, List.prefix_append up rest⟩
  · rintro ⟨up, hup, hprefix⟩
    exact (hσ.under_iff hup hg).mpr hprefix

/-- The path of a state leads through a block exactly when the state is below a member. -/
theorem exists_member_iff (hσ : Standing grammar root σ ν ∅ U) {branch : BranchPath} {block : Nat}
    {members : List Handle}
    (hmembers : ∀ position d, σ.Climbs d (branch.child (.member block position)) ↔
      members[position]? = some d) (hg : σ.Climbs g path) :
    (∃ position, branch.child (.member block position) <+: path) ↔
      ∃ d ∈ members, σ.Under d g := by
  constructor
  · rintro ⟨position, rest, rfl⟩
    obtain ⟨d, hd, hbelow⟩ := hg.above
    exact ⟨d, List.mem_of_getElem? ((hmembers position d).mp hd), hbelow⟩
  · rintro ⟨d, hd, hbelow⟩
    obtain ⟨position, hposition⟩ := List.mem_iff_getElem?.mp hd
    exact ⟨position, (hσ.under_iff ((hmembers position d).mpr hposition) hg).mp hbelow⟩

/-- A path that leads on from a state leads through the slot of a child of the state. -/
theorem exists_child_iff (hσ : Standing grammar root σ ν ∅ U) {path' : Path}
    (hh : σ.Climbs h path) (hg : σ.Climbs g path') : (path <+: path' ∧ path' ≠ path) ↔
      ∃ child up, (∃ name slot, σ.place? child = some (.within h name slot)) ∧
        σ.Climbs child up ∧ up <+: path' := by
  constructor
  · rintro ⟨⟨rest, rfl⟩, hlonger⟩
    cases rest with
    | nil => exact absurd (List.append_nil _) hlonger
    | cons step rest =>
      rw [List.append_cons] at hg ⊢
      obtain ⟨child, hchild, -⟩ := hg.above
      exact ⟨child, _, ⟨_, _, (hσ.climbs_within_iff hh).mp hchild⟩, hchild,
        List.prefix_append _ rest⟩
  · rintro ⟨child, up, ⟨name, slot, hplace⟩, hchild, hprefix⟩
    rw [hchild.unique (.within hplace hh)] at hprefix
    refine ⟨(List.prefix_append _ _).trans hprefix, ?_⟩
    rintro rfl
    simpa using hprefix.length_le

/-- What is further below a state has a path that leads on from it. -/
theorem below_iff_exists (hσ : Standing grammar root σ ν ∅ U) (hh : σ.Climbs h path)
    (hlive : σ.Live g) : (σ.Under h g ∧ g ≠ h) ↔
      ∃ path', σ.Climbs g path' ∧ path <+: path' ∧ path' ≠ path := by
  obtain ⟨path', hg⟩ := hσ.rooted g hlive
  have hne : g ≠ h ↔ path' ≠ path := not_congr
    ⟨fun heq => (heq ▸ hg).unique hh, fun heq => hσ.climbs_inj (heq ▸ hg) hh⟩
  rw [hσ.under_iff hh hg, hne]
  constructor
  · exact fun hboth => ⟨path', hg, hboth⟩
  · rintro ⟨path'', hg', hboth⟩
    rwa [hg.unique hg']

end Standing

/-- The states of an editor stand for its document, which is valid. -/
structure Editor.Mirrors (editor : Editor) (ν : Handle → Option Node) : Prop where
  standing : Standing editor.grammar editor.root editor.store ν ∅ ∅
  document : ν editor.root = some editor.document
  wellFormed : editor.document.WellFormed
  valid : editor.grammar.Valid editor.document
  distinct : editor.grammar.Distinct

namespace Editor

variable {editor : Editor} {ν : Handle → Option Node} {h : Handle} {path rest : Path}

/-- Going up from a state with generations enough finds its path. -/
theorem pathWithin_eq_ok {generations : Nat} (hclimbs : editor.store.Climbs h path)
    (hgenerations : path.length < generations) :
    editor.pathWithin generations h = .ok path := by
  induction hclimbs generalizing generations with
  | root hplace =>
    obtain ⟨generations, rfl⟩ := Nat.exists_eq_add_of_lt hgenerations
    obtain ⟨state, hstate, hat⟩ := Store.place?_eq_some.mp hplace
    rw [pathWithin, Store.live_eq_ok.mpr hstate, orRefuse_ok, ok_bind, hat]
    rfl
  | within hplace up ih =>
    obtain ⟨generations, rfl⟩ := Nat.exists_eq_add_of_lt hgenerations
    obtain ⟨state, hstate, hat⟩ := Store.place?_eq_some.mp hplace
    rw [pathWithin, Store.live_eq_ok.mpr hstate, orRefuse_ok, ok_bind, hat]
    dsimp only
    rw [ih (by simp; omega), ok_bind]
    rfl

/-- What is found by going up from a state is its path. -/
theorem climbs_of_pathWithin {generations : Nat}
    (hpath : editor.pathWithin generations h = .ok path) : editor.store.Climbs h path := by
  induction generations generalizing h path with
  | zero => cases hpath
  | succ generations ih =>
    rw [pathWithin, bind_eq_ok] at hpath
    obtain ⟨state, hstate, hpath⟩ := hpath
    rw [orRefuse_eq_ok, Store.live_eq_ok] at hstate
    have hplace : editor.store.place? h = some state.place :=
      Store.place?_eq_some.mpr ⟨state, hstate, rfl⟩
    generalize state.place = place at hplace hpath
    cases place with
    | root =>
      cases hpath
      exact .root hplace
    | within parent name slot =>
      obtain ⟨up, hup, hpath⟩ := bind_eq_ok.mp hpath
      cases hpath
      exact .within hplace (ih hup)

/-- The path of a state is the way up from it. -/
theorem pathOf_eq_ok : editor.pathOf h = .ok path ↔ editor.store.Climbs h path := by
  exact ⟨climbs_of_pathWithin, fun hclimbs =>
    pathWithin_eq_ok hclimbs (hclimbs.length_lt.trans (Store.occupied_lt_generations _))⟩

/-- A state that is not live has no path, and asking for it is refused. -/
theorem pathOf_refused (hlive : ¬ editor.store.Live h) :
    ∃ reason, editor.pathOf h = .error (.refused reason) := by
  unfold pathOf Store.generations
  rw [pathWithin]
  cases hstate : editor.store.live h with
  | error reason => exact ⟨reason, rfl⟩
  | ok state => exact absurd ⟨state, Store.live_eq_ok.mp hstate⟩ hlive

/-- The path that leads on from a state is followed to the state that has it. -/
theorem resolveFrom_eq_ok (hσ : Standing editor.grammar editor.root editor.store ν ∅ ∅)
    {whole : Path} {g : Handle} (hclimbs : editor.store.Climbs h path) :
    editor.resolveFrom whole h rest = .ok g ↔ editor.store.Climbs g (path ++ rest) := by
  -- By induction on the rest of the path, with the state that has been reached generalised.
  induction rest generalizing h path with
  | nil =>
    rw [resolveFrom, List.append_nil, Except.ok.injEq]
    exact ⟨fun heq => heq ▸ hclimbs, fun hg => hσ.climbs_inj hclimbs hg⟩
  | cons step rest ih =>
    rw [resolveFrom, bind_eq_ok, List.append_cons]
    constructor
    · rintro ⟨branch, hbranch, hrest⟩
      cases hchild : branch.childAt? step.slot with
      | none =>
        rw [hchild] at hrest
        cases hrest
      | some child =>
        rw [hchild] at hrest
        exact (ih (hσ.climbs_child hclimbs (Store.branch_eq_ok.mp hbranch) hchild)).mp hrest
    · intro hg
      obtain ⟨child, hchild, -⟩ := hg.above
      obtain ⟨branch, hbranch, hheld⟩ := (hσ.climbs_child_iff hclimbs).mp hchild
      refine ⟨branch, Store.branch_eq_ok.mpr hbranch, ?_⟩
      rw [hheld]
      exact (ih hchild).mpr hg

/-- Following a path leads to the state that has it. -/
theorem resolve_eq_ok (hmirrors : editor.Mirrors ν) :
    editor.resolve path = .ok h ↔ editor.store.Climbs h path :=
  resolveFrom_eq_ok hmirrors.standing hmirrors.standing.climbs_root

/-- The node of a state is its label. -/
theorem node?_eq (hmirrors : editor.Mirrors ν) (hlive : editor.store.Live h) :
    editor.node? h = ν h := by
  have hσ := hmirrors.standing
  obtain ⟨path, hclimbs⟩ := hσ.rooted h hlive
  have hlabel := hσ.label_of_climbs hmirrors.document hclimbs
  rw [node?, nodeOf, pathOf_eq_ok.mpr hclimbs, ok_bind, nodeAt]
  cases hnode : ν h with
  | some node =>
    rw [hnode] at hlabel
    rw [Grammar.descend_of_reach hmirrors.wellFormed hlabel.symm]
    rfl
  | none =>
    -- Only the slot of an optional child has no label, and there the document has no node.
    cases hclimbs with
    | root hplace =>
      rw [(hσ.root_iff h).mp hplace, hmirrors.document] at hnode
      cases hnode
    | @within _ parent name slot up hplace hup =>
      obtain ⟨above, habove⟩ := hσ.isSome_of_place? hplace
      have hreach := (hσ.label_of_climbs hmirrors.document hup).symm
      rw [habove] at hreach
      rw [Node.descend_append, Grammar.descend_of_reach hmirrors.wellFormed hreach, ok_bind]
      cases hchild : above.step ⟨name, slot⟩ with
      | error reason =>
        rw [Node.descend, hchild]
        rfl
      | ok child =>
        obtain ⟨branch, hbranch, -⟩ := (hσ.linked parent hup.live (Set.notMem_empty parent) name
          slot h).mp hplace
        have hrel := hσ.rel_branch? hup.live habove name
        rw [hbranch, rel_some_right] at hrel
        obtain ⟨P, hP, -⟩ := hrel
        have hwellFormed := Grammar.wellFormed_reach hmirrors.wellFormed hreach
        rw [hσ.label_of_place? hplace habove, Grammar.stepTo_of_step hwellFormed hP hchild] at hnode
        cases hnode

/-- A state that is not live has no node. -/
theorem node?_of_not_live (hlive : ¬ editor.store.Live h) : editor.node? h = none := by
  obtain ⟨reason, hpath⟩ := pathOf_refused hlive
  rw [node?, nodeOf, hpath]
  rfl

end Editor

end TreeEditor
