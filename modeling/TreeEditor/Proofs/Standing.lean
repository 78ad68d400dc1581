import TreeEditor.Proofs.Descent
import TreeEditor.Proofs.Store

/-!
# Stores that stand for a document

`Standing` says that the states of a store stand for the nodes of a document. Its parts speak of one
state at a time. Every state is labelled with the node it stands for, or with none when it is the
slot of an optional child without one; what a state has under each name reflects the property of
that name of its node, child by child (`Reflects`); a state holds a child in a slot exactly when the
child stands in that slot (`Store.Linked`); and the register leads from each place to the state
there.

While an edit is under way this fails for some states. The open states are those whose branches are
being changed, and the loose ones those that may be missing from the register. Once the branches of
an open state are right again it can be closed (`Standing.close`).
-/

namespace TreeEditor

/-- A handle is labelled with a node. -/
def Labels (ν : Handle → Option Node) (node : Node) (h : Handle) : Prop := ν h = some node

/-- A branch holds states that are labelled with the children of a property. -/
inductive Reflects (ν : Handle → Option Node) : Property Node → Branch → Prop where
  | placeholder {node : Node} {child : Handle} (label : Labels ν node child) :
    Reflects ν (.child node) (.placeholder child)
  | optional {assigned : Bool} {item : Option Node} {child : Handle}
    (label : ν child = if assigned then item else none) :
    Reflects ν (.optional assigned item) (.optional child)
  | list {nodes : List Node} {children : List Handle}
    (labels : List.Forall₂ (Labels ν) nodes children) : Reflects ν (.list nodes) (.list children)
  | blockList {blocks : List (Block Node Node)} {states : List (Block Node Handle)}
    (labels : List.Forall₂ (Block.Corresponds Eq (Labels ν)) blocks states) :
    Reflects ν (.blockList blocks) (.blockList states)

/-- An entry of a table of branches reflects an entry of a table of properties. -/
structure Matches (ν : Handle → Option Node) (entry : String × Property Node)
    (held : String × Branch) : Prop where
  name : entry.1 = held.1
  reflects : Reflects ν entry.2 held.2

/-- Tables of entries that match have the same names. -/
theorem keys_eq_of_matches {ν : Handle → Option Node} {found : List (String × Property Node)}
    {branches : List (String × Branch)} (h : List.Forall₂ (Matches ν) found branches) :
    Table.keys branches = Table.keys found := by
  induction h with
  | nil => rfl
  | cons hmatch _ ih =>
    unfold Table.keys at ih ⊢
    rw [List.map_cons, List.map_cons, ih, hmatch.name]

/-- A state is as it should be for the node it stands for, or for the lack of one. -/
inductive Settled (grammar : Grammar) (ν : Handle → Option Node) (state : State) :
    Option Node → Prop where
  | vacant (stage : state.stage = .vacant) (branches : state.branches = []) :
    Settled grammar ν state none
  | ready {node : Node} {found : List (String × Property Node)} (stage : state.stage = .ready)
    (keys : (Table.keys state.branches).Nodup) (shape : grammar.branches node = .ok found)
    (reflects : List.Forall₂ (Matches ν) found state.branches) :
    Settled grammar ν state (some node)

/-- A state holds a child in a slot exactly when the child stands there. -/
def Store.Linked (σ : Store) (h : Handle) : Prop :=
  ∀ name slot child, σ.place? child = some (.within h name slot) ↔
    ∃ branch, σ.branch? h name = some branch ∧ branch.childAt? slot = some child

/-- The states stand for nodes. -/
structure Standing (grammar : Grammar) (root : Handle) (σ : Store) (ν : Handle → Option Node)
    (openings loose : Set Handle) : Prop where
  arena : σ.arena.Sound
  keys : (Table.keys σ.register).Nodup
  /-- What is registered for a place stands there. -/
  registered : ∀ place h, σ.stateAt? place = some h → σ.place? h = some place
  /-- What stands at a place is registered for it, loose states apart. -/
  enrolled : ∀ place h, σ.place? h = some place → h ∉ loose → σ.stateAt? place = some h
  root_iff : ∀ h, σ.place? h = some .root ↔ h = root
  /-- There is a way up from every state. -/
  rooted : ∀ h, σ.Live h → ∃ path, σ.Climbs h path
  linked : ∀ h, σ.Live h → h ∉ openings → σ.Linked h
  settled : ∀ h state, σ.get? h = some state → h ∉ openings → Settled grammar ν state (ν h)
  owned : σ.Owned

/-- A branch of blocks reflects a list of blocks that corresponds to it. -/
theorem reflects_blockList {ν : Handle → Option Node} {P : Property Node}
    {states : List (Block Node Handle)} : Reflects ν P (.blockList states) ↔
      ∃ blocks, P = .blockList blocks ∧
        List.Forall₂ (Block.Corresponds Eq (Labels ν)) blocks states := by
  constructor
  · rintro ⟨⟩
    exact ⟨_, rfl, ‹_›⟩
  · rintro ⟨blocks, rfl, labels⟩
    exact .blockList labels

/-- A branch of an optional child reflects an item that the child stands for if it is assigned. -/
theorem reflects_optional {ν : Handle → Option Node} {P : Property Node} {child : Handle} :
    Reflects ν P (.optional child) ↔ ∃ assigned item, P = .optional assigned item ∧
      ν child = if assigned then item else none := by
  constructor
  · rintro ⟨⟩
    exact ⟨_, _, rfl, ‹_›⟩
  · rintro ⟨assigned, item, rfl, label⟩
    exact .optional label

namespace Reflects

variable {ν ν' : Handle → Option Node} {P : Property Node} {branch : Branch}

/-- A branch is of the kind of the property that it reflects. -/
theorem kind_eq (h : Reflects ν P branch) : P.kind = branch.kind := by
  cases h <;> rfl

/-- Labels are of account only for the states that a branch holds. -/
theorem congr (h : Reflects ν P branch)
    (hν : ∀ slot child, branch.childAt? slot = some child → ν' child = ν child) :
    Reflects ν' P branch := by
  cases h with
  | placeholder label => exact .placeholder ((hν .placeholder _ rfl).trans label)
  | optional label => exact .optional ((hν .optional _ rfl).trans label)
  | list labels =>
    refine .list ((forall₂_attach labels).imp ?_)
    rintro node child ⟨-, hmem, hlabel⟩
    obtain ⟨position, hposition⟩ := List.mem_iff_getElem?.mp hmem
    exact (hν (.list position) child hposition).trans hlabel
  | blockList labels =>
    refine .blockList ((forall₂_attach labels).imp ?_)
    rintro content state ⟨-, hstate, hheader, hmembers⟩
    refine ⟨hheader, (forall₂_attach hmembers).imp ?_⟩
    rintro node child ⟨-, hmem, hlabel⟩
    obtain ⟨block, hblock⟩ := List.mem_iff_getElem?.mp hstate
    obtain ⟨position, hposition⟩ := List.mem_iff_getElem?.mp hmem
    refine (hν (.member block position) child ?_).trans hlabel
    simp only [Branch.childAt?, hblock]
    exact hposition

/-- The states in slots that always hold a node are labelled with the children there. -/
theorem rel_childAt? (h : Reflects ν P branch) {slot : Slot} (hslot : slot ≠ .optional) :
    Option.Rel (Labels ν) (P.childAt? slot) (branch.childAt? slot) := by
  cases h with
  | placeholder label =>
    cases slot with
    | placeholder => exact .some label
    | _ => exact .none
  | @optional assigned _ _ _ =>
    cases slot with
    | optional => exact absurd rfl hslot
    | _ => cases assigned <;> exact .none
  | list labels =>
    cases slot with
    | list position => exact rel_getElem? labels position
    | _ => exact .none
  | blockList labels =>
    cases slot with
    | member block position =>
      exact rel_bind (rel_getElem? labels block) fun _ _ hcontent =>
        rel_getElem? hcontent.members position
    | _ => exact .none

/-- The state in a slot is labelled with the child there. -/
theorem label_eq (h : Reflects ν P branch) {slot : Slot} {child : Handle}
    (hchild : branch.childAt? slot = some child) : ν child = P.childAt? slot := by
  by_cases hslot : slot = .optional
  · subst hslot
    cases h with
    | @optional assigned item _ label =>
      cases hchild
      rw [label]
      cases assigned <;> rfl
    | _ => cases hchild
  · have hrel := h.rel_childAt? hslot
    rw [hchild, rel_some_right] at hrel
    obtain ⟨node, hnode, hlabel⟩ := hrel
    exact hlabel.trans hnode.symm

/-- Every child of a property has its state. -/
theorem exists_child (h : Reflects ν P branch) {slot : Slot} {node : Node}
    (hnode : P.childAt? slot = some node) :
    ∃ child, branch.childAt? slot = some child ∧ ν child = some node := by
  by_cases hslot : slot = .optional
  · subst hslot
    cases h with
    | @optional _ _ child label =>
      have hheld : (Branch.optional child).childAt? .optional = some child := rfl
      exact ⟨child, hheld, ((Reflects.optional label).label_eq hheld).trans hnode⟩
    | _ => cases hnode
  · have hrel := h.rel_childAt? hslot
    rwa [hnode, rel_some_left] at hrel

/-- Only in the slot of an optional child stands a state without a node. -/
theorem slot_of_none (h : Reflects ν P branch) {slot : Slot} {child : Handle}
    (hchild : branch.childAt? slot = some child) (hnone : ν child = none) :
    slot = .optional ∧ P.kind = .optional := by
  by_cases hslot : slot = .optional
  · subst hslot
    cases h with
    | optional label => exact ⟨rfl, rfl⟩
    | _ => cases hchild
  · have hrel := h.rel_childAt? hslot
    rw [hchild, rel_some_right] at hrel
    obtain ⟨node, -, hlabel⟩ := hrel
    cases hnone.symm.trans hlabel

end Reflects

namespace Settled

variable {grammar : Grammar} {ν ν' : Handle → Option Node} {state : State} {node : Node}

/-- Labels are of account only for the states that a state holds. -/
theorem congr {item : Option Node} (h : Settled grammar ν state item)
    (hν : ∀ entry ∈ state.branches, ∀ slot child, entry.2.childAt? slot = some child →
      ν' child = ν child) : Settled grammar ν' state item := by
  cases h with
  | vacant stage branches => exact .vacant stage branches
  | ready stage keys shape reflects =>
    refine .ready stage keys shape ((forall₂_attach reflects).imp ?_)
    rintro entry held ⟨-, hheld, hname, hreflects⟩
    exact ⟨hname, hreflects.congr (hν held hheld)⟩

/-- The place of a state is of no account. -/
theorem congr_state {item : Option Node} {state' : State} (h : Settled grammar ν state item)
    (hstage : state'.stage = state.stage) (hbranches : state'.branches = state.branches) :
    Settled grammar ν state' item := by
  cases h with
  | vacant stage branches => exact .vacant (hstage.trans stage) (hbranches.trans branches)
  | ready stage keys shape reflects =>
    refine .ready (hstage.trans stage) ?_ shape ?_
    · rwa [hbranches]
    · rwa [hbranches]

/-- What a state has under a name reflects what its node has there. -/
theorem rel (h : Settled grammar ν state (some node)) (name : String) :
    Option.Rel (Reflects ν) (grammar.branch? node name) (Table.get? name state.branches) := by
  cases h with
  | ready stage keys shape reflects =>
    rw [Grammar.branch?, shape]
    simp only [toOption_ok, Option.bind_some]
    clear keys shape
    generalize state.branches = branches at reflects
    induction reflects with
    | nil => exact .none
    | @cons entry held _ _ hmatch _ ih =>
      obtain ⟨name', P⟩ := entry
      obtain ⟨name'', branch⟩ := held
      obtain ⟨rfl, hreflects⟩ := hmatch
      simp only [Table.get?]
      split
      · exact .some hreflects
      · exact ih

/-- A settled state goes on being settled when one of its branches is changed together with the
property that it reflects. -/
theorem set (h : Settled grammar ν state (some node)) (hnode : node.WellFormed) {name : String}
    {P P' : Property Node} (hP : grammar.branch? node name = some P) (hkind : P'.kind = P.kind)
    {state' : State} {branch' : Branch} (hstage : state'.stage = state.stage)
    (hbranches : state'.branches = Table.set name branch' state.branches)
    (hreflects : Reflects ν' P' branch')
    (hothers : ∀ entry ∈ state.branches, entry.1 ≠ name → ∀ slot child,
      entry.2.childAt? slot = some child → ν' child = ν child) :
    Settled grammar ν' state' (some (node.set name P')) := by
  have hrel := h.rel name
  cases h with
  | @ready _ found stage keys shape reflects =>
    rw [hP, rel_some_left] at hrel
    obtain ⟨branch, hbranch, -⟩ := hrel
    have hmem : name ∈ Table.keys state.branches :=
      List.mem_map_of_mem (f := Prod.fst) (Table.mem_of_get? hbranch)
    have hproperty := Grammar.property?_of_branch? hnode.keys hP
    -- The grammar goes by the kinds, so the changed node has its branches under the same names.
    have hshape : grammar.branches (node.set name P') = _ :=
      Grammar.branches_set hnode.keys hproperty hkind
    rw [shape, Except.map] at hshape
    refine .ready (hstage.trans stage) ?_ hshape ?_
    · rw [hbranches]
      exact Table.nodup_keys_set keys _
    · rw [hbranches, Table.set_eq_map_overwrite keys hmem, List.forall₂_map_left_iff,
        List.forall₂_map_right_iff]
      refine (forall₂_attach reflects).imp ?_
      rintro ⟨entry, Q⟩ ⟨_, held⟩ ⟨-, hheld, rfl, hmatch⟩
      refine ⟨by simp, ?_⟩
      unfold Table.overwrite
      dsimp only
      split
      · exact hreflects
      · rename_i hne
        exact hmatch.congr (hothers _ hheld hne)

/-- A value is of no account. -/
theorem setValue (h : Settled grammar ν state (some node)) (hnode : node.WellFormed)
    {name : String} {before after : Leaf} (hP : node.property? name = some (.value before)) :
    Settled grammar ν state (some (node.set name (.value after))) := by
  cases h with
  | @ready _ found stage keys shape reflects =>
    have hshape : grammar.branches (node.set name (.value after)) = _ :=
      Grammar.branches_set hnode.keys hP rfl
    rw [shape, Except.map] at hshape
    refine .ready stage keys hshape
      (List.forall₂_map_left_iff.mpr ((forall₂_attach reflects).imp ?_))
    rintro ⟨entry, Q⟩ held ⟨hmem, -, hmatch⟩
    have hne : entry ≠ name := by
      rintro rfl
      obtain ⟨hQ, hbears, -⟩ := (Grammar.mem_browse hnode.keys shape).mp hmem
      rw [show Table.get? entry node.properties = some (.value before) from hP] at hQ
      cases hQ
      cases hbears
    unfold Table.overwrite
    dsimp only
    rwa [if_neg hne]

/-- What a settled state has stands under different names. -/
theorem keys {item : Option Node} (h : Settled grammar ν state item) :
    (Table.keys state.branches).Nodup := by
  cases h with
  | vacant _ branches =>
    rw [branches]
    exact List.nodup_nil
  | ready _ keys _ _ => exact keys

/-- A state of a node is ready. -/
theorem stage_eq (h : Settled grammar ν state (some node)) : state.stage = .ready := by
  cases h with
  | ready stage _ _ _ => exact stage

/-- The stage of a settled state tells whether it has a node. -/
theorem stage_iff {item : Option Node} (h : Settled grammar ν state item) :
    state.stage = .ready ↔ item.isSome := by
  cases h with
  | vacant stage _ => simp [stage]
  | ready stage _ _ _ => simp [stage]

/-- The stage of a settled state tells whether it is vacant. -/
theorem vacant_iff {item : Option Node} (h : Settled grammar ν state item) :
    state.stage = .vacant ↔ item = none := by
  cases h with
  | vacant stage _ => simp [stage]
  | ready stage _ _ _ => simp [stage]

end Settled

/-- Branches of different names hold no state twice, if what they hold stands where they hold it. -/
theorem Store.nodup_of_places {σ : Store} {h : Handle} {branches : List (String × Branch)}
    (hkeys : (Table.keys branches).Nodup) (hplace : ∀ entry ∈ branches, ∀ held ∈ entry.2.slots,
      σ.place? held.2 = some (.within h entry.1 held.1)) :
    (branches.flatMap fun entry => entry.2.children).Nodup := by
  have hnames : branches.Pairwise fun a b => a.1 ≠ b.1 := List.pairwise_map.mp hkeys
  refine List.nodup_flatMap.mpr ⟨fun entry hentry => ?_, hnames.imp_of_mem ?_⟩
  · have hslots := List.pairwise_map.mp (Branch.nodup_slots entry.2)
    refine List.pairwise_map.mpr (hslots.imp_of_mem fun {a b} ha hb hne heq => hne ?_)
    have hsame := hplace entry hentry a ha
    rw [heq, hplace entry hentry b hb] at hsame
    injection hsame with hsame
    injection hsame with _ _ hslot
    exact hslot.symm
  · intro a b ha hb hne child hmem hmem'
    obtain ⟨held, hheld, rfl⟩ := List.mem_map.mp hmem
    obtain ⟨held', hheld', heq⟩ := List.mem_map.mp hmem'
    have hsame := hplace a ha held hheld
    rw [← heq, hplace b hb held' hheld'] at hsame
    injection hsame with hsame
    injection hsame with _ hname _
    exact hne hname.symm

namespace Standing

variable {grammar : Grammar} {root h : Handle} {σ σ' : Store} {ν ν' : Handle → Option Node}
  {H H' U U' : Set Handle}

/-- What was announced is of no account. -/
theorem journal (hσ : Standing grammar root σ ν H U) (journal : Array Event) :
    Standing grammar root { σ with journal } ν H U :=
  ⟨hσ.arena, hσ.keys, hσ.registered, hσ.enrolled, hσ.root_iff,
    fun h hlive => (hσ.rooted h hlive).imp fun _ hclimbs => hclimbs.mono fun _ _ hplace => hplace,
    hσ.linked, hσ.settled, hσ.owned⟩

/-- What an event tells is of no account. -/
theorem announce (hσ : Standing grammar root σ ν H U) (event : Event) :
    Standing grammar root (σ.announce event) ν H U := hσ.journal _

/-- More states may be open or loose. -/
theorem mono (hσ : Standing grammar root σ ν H U) (hH : H ⊆ H') (hU : U ⊆ U') :
    Standing grammar root σ ν H' U' where
  arena := hσ.arena
  keys := hσ.keys
  registered := hσ.registered
  enrolled := fun place h hplace hloose => hσ.enrolled place h hplace fun hmem => hloose (hU hmem)
  root_iff := hσ.root_iff
  rooted := hσ.rooted
  linked := fun h hlive hopen => hσ.linked h hlive fun hmem => hopen (hH hmem)
  settled := fun h state hstate hopen => hσ.settled h state hstate fun hmem => hopen (hH hmem)
  owned := hσ.owned

/-- A store stands after a step that leaves the states that are not open as they are, and what
stands in their slots. -/
theorem transfer (hσ : Standing grammar root σ ν H U) (harena : σ'.arena.Sound)
    (hkeys : (Table.keys σ'.register).Nodup)
    (hregistered : ∀ place h, σ'.stateAt? place = some h → σ'.place? h = some place)
    (henrolled : ∀ place h, σ'.place? h = some place → h ∉ U' → σ'.stateAt? place = some h)
    (hroot : ∀ h, σ'.place? h = some .root ↔ h = root)
    (hrooted : ∀ h, σ'.Live h → ∃ path, σ'.Climbs h path) (howned : σ'.Owned)
    (hframe : ∀ h state', σ'.get? h = some state' → h ∉ H' → h ∉ H ∧
      (∃ state, σ.get? h = some state ∧ state'.stage = state.stage ∧
        state'.branches = state.branches) ∧
      ∀ name slot child, σ'.place? child = some (.within h name slot) ↔
        σ.place? child = some (.within h name slot)) :
    Standing grammar root σ' ν H' U' where
  arena := harena
  keys := hkeys
  registered := hregistered
  enrolled := henrolled
  root_iff := hroot
  rooted := hrooted
  owned := howned
  linked := by
    rintro h ⟨state', hget'⟩ hopen name slot child
    obtain ⟨hopen', ⟨state, hget, -, hbranches⟩, hplaces⟩ := hframe h state' hget' hopen
    rw [hplaces, hσ.linked h ⟨state, hget⟩ hopen' name slot child, Store.branch?, Store.branch?,
      hget, hget', Option.bind_some, Option.bind_some, hbranches]
  settled := by
    intro h state' hget' hopen
    obtain ⟨hopen', ⟨state, hget, hstage, hbranches⟩, -⟩ := hframe h state' hget' hopen
    exact (hσ.settled h state hget hopen').congr_state hstage hbranches

/-- The states that a state holds stand in its slots. -/
theorem place?_of_entry (hσ : Standing grammar root σ ν H U) {state : State}
    (hstate : σ.get? h = some state) (hopen : h ∉ H) {entry : String × Branch}
    (hentry : entry ∈ state.branches) {slot : Slot} {child : Handle}
    (hchild : entry.2.childAt? slot = some child) :
    σ.place? child = some (.within h entry.1 slot) := by
  have hkeys := (hσ.settled h state hstate hopen).keys
  refine (hσ.linked h ⟨state, hstate⟩ hopen entry.1 slot child).mpr ⟨entry.2, ?_, hchild⟩
  rw [Store.branch?, hstate]
  exact (Table.mem_iff_get? hkeys).mp hentry

/-- The children of a state stand in slots of it. -/
theorem place?_of_child (hσ : Standing grammar root σ ν H U) {state : State}
    (hstate : σ.get? h = some state) (hopen : h ∉ H) {child : Handle}
    (hchild : child ∈ state.branches.flatMap fun entry => entry.2.children) :
    ∃ name slot, σ.place? child = some (.within h name slot) := by
  obtain ⟨entry, hentry, hchild⟩ := List.mem_flatMap.mp hchild
  obtain ⟨slot, hslot⟩ := Branch.mem_children.mp hchild
  exact ⟨entry.1, slot, hσ.place?_of_entry hstate hopen hentry hslot⟩

/-- What is below a child of a state is below the state and not the state itself. -/
theorem under_of_child (hσ : Standing grammar root σ ν H U) {state : State}
    (hstate : σ.get? h = some state) (hopen : h ∉ H) {path : Path} (hclimbs : σ.Climbs h path)
    {child g : Handle} (hchild : child ∈ state.branches.flatMap fun entry => entry.2.children)
    (hunder : σ.Under child g) : σ.Under h g ∧ g ≠ h := by
  obtain ⟨name, slot, hplace⟩ := hσ.place?_of_child hstate hopen hchild
  refine ⟨Store.Under.trans (.within hplace .refl) hunder, ?_⟩
  rintro rfl
  exact Store.not_under_parent (.within hplace hclimbs) hplace hunder

/-- Where a state has a slot there is a state that has it. -/
theorem parent_live (hσ : Standing grammar root σ ν H U) {parent : Handle} {name : String}
    {slot : Slot} (hplace : σ.place? h = some (.within parent name slot)) : σ.Live parent := by
  obtain ⟨path, hclimbs⟩ := hσ.rooted h (Store.live_of_place? hplace)
  obtain ⟨up, hup, -⟩ := hclimbs.parent hplace
  exact hup.live

/-- A state holds every one of its children once. -/
theorem nodup_children (hσ : Standing grammar root σ ν H U) {state : State}
    (hstate : σ.get? h = some state) (hopen : h ∉ H) :
    (state.branches.flatMap fun entry => entry.2.children).Nodup :=
  Store.nodup_of_places (hσ.settled h state hstate hopen).keys fun _ hentry _ hheld =>
    hσ.place?_of_entry hstate hopen hentry (Branch.mem_slots.mp hheld)

/-- Labels may change where no state that is not open depends on them. -/
theorem relabel (hσ : Standing grammar root σ ν H U)
    (hν : ∀ h, σ.Live h → h ∉ H → ν' h = ν h ∧ ∀ name slot child,
      σ.place? child = some (.within h name slot) → ν' child = ν child) :
    Standing grammar root σ ν' H U :=
  { hσ with
    settled := by
      intro h state hstate hopen
      obtain ⟨hsame, hchildren⟩ := hν h ⟨state, hstate⟩ hopen
      rw [hsame]
      exact (hσ.settled h state hstate hopen).congr fun entry hentry slot child hchild =>
        hchildren _ _ _ (hσ.place?_of_entry hstate hopen hentry hchild) }

/-- An open state whose branches are right can be closed. -/
theorem close (hσ : Standing grammar root σ ν H U)
    (hlinked : ∀ h ∈ H, σ.Live h → h ∉ H' → σ.Linked h)
    (hsettled : ∀ h ∈ H, ∀ state, σ.get? h = some state → h ∉ H' →
      Settled grammar ν state (ν h)) : Standing grammar root σ ν H' U :=
  { hσ with
    linked := fun h hlive hopen => by
      by_cases hmem : h ∈ H
      · exact hlinked h hmem hlive hopen
      · exact hσ.linked h hlive hmem
    settled := fun h state hstate hopen => by
      by_cases hmem : h ∈ H
      · exact hsettled h hmem state hstate hopen
      · exact hσ.settled h state hstate hmem }

end Standing

end TreeEditor
