import TreeEditor.Editor.Audit
import TreeEditor.Proofs.Inverse
import TreeEditor.Proofs.StatePaths

/-!
# A standing store passes the audit

The audit follows the document down the states. At every state it finds what it looks for, and what
it counts on the way are the states below (`Store.Passes`): two children of a state have nothing
below them in common, so nothing is counted twice, and nothing is left out since there is a way up
to the root from every state. So an editor whose states stand for its document passes
(`Editor.Mirrors.verify`).
-/

namespace TreeEditor

section Slots

variable {α β : Type} {R : α → β → Prop}

/-- The positions of lists that correspond, each made into a slot, are the same and hold what
corresponds. -/
theorem forall₂_zipIdx {as : List α} {bs : List β} (h : List.Forall₂ R as bs)
    (slotAt : Nat → Slot) (position : Nat) :
    List.Forall₂ (fun a b => a.1 = b.1 ∧ R a.2 b.2)
      ((as.zipIdx position).map fun entry => (slotAt entry.2, entry.1))
      ((bs.zipIdx position).map fun entry => (slotAt entry.2, entry.1)) := by
  rw [List.forall₂_map_left_iff, List.forall₂_map_right_iff]
  induction h generalizing position with
  | nil => exact .nil
  | cons hab _ ih => exact .cons ⟨rfl, hab⟩ (ih (position + 1))

/-- The slots of lists that correspond are the same and hold what corresponds. -/
theorem forall₂_listSlots {as : List α} {bs : List β} (h : List.Forall₂ R as bs) :
    List.Forall₂ (fun a b => a.1 = b.1 ∧ R a.2 b.2) (listSlots as) (listSlots bs) :=
  forall₂_zipIdx h .list 0

/-- The slots of lists of blocks that correspond are the same and hold what corresponds. -/
theorem forall₂_blockSlots {γ δ : Type} {Q : Header γ → Header δ → Prop}
    {as : List (Block γ α)} {bs : List (Block δ β)}
    (h : List.Forall₂ (Block.Corresponds Q R) as bs) :
    List.Forall₂ (fun a b => a.1 = b.1 ∧ R a.2 b.2) (blockSlots as) (blockSlots bs) := by
  unfold blockSlots
  rw [show as.zipIdx = as.zipIdx 0 from rfl, show bs.zipIdx = bs.zipIdx 0 from rfl]
  suffices hblocks : ∀ block, List.Forall₂ (fun a b => a.1 = b.1 ∧ R a.2 b.2)
      ((as.zipIdx block).flatMap fun entry => entry.1.members.zipIdx.map fun member =>
        (Slot.member entry.2 member.2, member.1))
      ((bs.zipIdx block).flatMap fun entry => entry.1.members.zipIdx.map fun member =>
        (Slot.member entry.2 member.2, member.1)) from hblocks 0
  induction h with
  | nil => exact fun _ => .nil
  | cons hab _ ih =>
    intro block
    rw [List.zipIdx_cons, List.zipIdx_cons, List.flatMap_cons, List.flatMap_cons]
    exact List.rel_append (forall₂_zipIdx hab.members (.member block) 0) (ih (block + 1))

/-- The slots of a list whose items are replaced. -/
theorem listSlots_map (f : α → β) (items : List α) :
    listSlots (items.map f) = (listSlots items).map fun entry => (entry.1, f entry.2) := by
  simp [listSlots, List.zipIdx_map, Function.comp_def]

/-- The children of a property whose children are replaced. -/
theorem Property.children_map (f : α → β) (P : Property α) :
    (P.map f).children = P.children.map fun entry => (entry.1, f entry.2) := by
  cases P with
  | optional assigned item => cases assigned <;> cases item <;> rfl
  | blockList blocks =>
    simp [Property.map, Property.children, blockSlots, List.zipIdx_map, List.flatMap_map,
      List.map_flatMap, Block.map, Function.comp_def]
  | list nodes => exact listSlots_map f nodes
  | _ => rfl

end Slots

namespace Store

variable {σ : Store} {o h : Handle} {hs hs' : List Handle} {x x' : Except Violation Nat}

/-- A check passes and has counted the states below some states. -/
def Passes (σ : Store) (hs : List Handle) (x : Except Violation Nat) : Prop :=
  ∃ below : List Handle, x = .ok below.length ∧ below.Nodup ∧
    ∀ g, g ∈ below ↔ σ.Live g ∧ ∃ c ∈ hs, σ.Under c g

/-- Nothing is below no states. -/
theorem Passes.nil : σ.Passes [] (.ok 0) := ⟨[], rfl, .nil, by simp⟩

/-- A state is a child of another one. -/
def Child (σ : Store) (o c : Handle) : Prop :=
  ∃ name slot, σ.place? c = some (.within o name slot)

/-- Nothing is below two children of a state. -/
theorem eq_of_under_children {path : Path} {c c' g : Handle} (hclimbs : σ.Climbs o path)
    (hc : σ.Child o c) (hc' : σ.Child o c') (hunder : σ.Under c g) (hunder' : σ.Under c' g) :
    c = c' := by
  obtain ⟨name, slot, hat⟩ := hc
  obtain ⟨name', slot', hat'⟩ := hc'
  exact eq_of_under_both hat (.within hat hclimbs) hat' (.within hat' hclimbs) hunder hunder'

/-- What is below the first children of a state and what is below the rest is counted once. -/
theorem Passes.append {path : Path} (hclimbs : σ.Climbs o path)
    (hchildren : ∀ c ∈ hs ++ hs', σ.Child o c) (hnodup : (hs ++ hs').Nodup) (hx : σ.Passes hs x)
    (hx' : σ.Passes hs' x') :
    σ.Passes (hs ++ hs') (x >>= fun n => x' >>= fun m => .ok (n + m)) := by
  obtain ⟨below, rfl, hbelow, hmem⟩ := hx
  obtain ⟨below', rfl, hbelow', hmem'⟩ := hx'
  refine ⟨below ++ below', by simp, hbelow.append hbelow' fun g hg hg' => ?_, fun g => ?_⟩
  · obtain ⟨-, c, hc, hunder⟩ := (hmem g).mp hg
    obtain ⟨-, c', hc', hunder'⟩ := (hmem' g).mp hg'
    obtain rfl := eq_of_under_children hclimbs (hchildren c (List.mem_append_left hs' hc))
      (hchildren c' (List.mem_append_right hs hc')) hunder hunder'
    exact List.disjoint_of_nodup_append hnodup hc hc'
  · simp only [List.mem_append, hmem, hmem', or_and_right, exists_or, and_or_left]

/-- The states below a state are itself and the states below its children. -/
theorem Passes.cons {path : Path} (hclimbs : σ.Climbs o path)
    (hchildren : ∀ c, σ.Child o c ↔ c ∈ hs) (hx : σ.Passes hs x) :
    σ.Passes [o] (x >>= fun n => .ok (1 + n)) := by
  obtain ⟨below, rfl, hbelow, hmem⟩ := hx
  refine ⟨o :: below, by simp [Nat.add_comm], List.nodup_cons.mpr ⟨fun ho => ?_, hbelow⟩,
    fun g => ?_⟩
  · obtain ⟨-, c, hc, hunder⟩ := (hmem o).mp ho
    obtain ⟨name, slot, hat⟩ := (hchildren c).mpr hc
    exact not_under_parent (.within hat hclimbs) hat hunder
  · simp only [List.mem_cons, hmem, List.not_mem_nil, or_false, exists_eq_left]
    constructor
    · rintro (rfl | ⟨hlive, c, hc, hunder⟩)
      · exact ⟨hclimbs.live, .refl⟩
      · obtain ⟨name, slot, hat⟩ := (hchildren c).mpr hc
        exact ⟨hlive, .trans (.within hat .refl) hunder⟩
    · rintro ⟨hlive, hunder⟩
      obtain rfl | ⟨c, name, slot, hat, hunder⟩ := hunder.eq_or_child
      · exact .inl rfl
      · exact .inr ⟨hlive, c, (hchildren c).mp ⟨name, slot, hat⟩, hunder⟩

/-- A state stands where it is expected. -/
theorem checkPlace_eq_ok {place : Place} (hplace : σ.place? h = some place) :
    σ.checkPlace place h = .ok () := by
  obtain ⟨state, hstate, hat⟩ := place?_eq_some.mp hplace
  rw [checkPlace, hstate]
  exact if_pos hat

/-- The children in the slots of a branch pass when each of them does. -/
theorem checkChildren_passes {path : Path} {site : BranchRef}
    (hclimbs : σ.Climbs site.owner path) {children : List (Slot × Node × Check)}
    {slots : List (Slot × Handle)} (hnodup : (slots.map Prod.snd).Nodup)
    (hplaces : ∀ held ∈ slots,
      σ.place? held.2 = some (.within site.owner site.property held.1))
    (h : List.Forall₂ (fun entry held => entry.1 = held.1 ∧
      σ.Passes [held.2] (entry.2.2 held.2)) children slots) :
    σ.Passes (slots.map Prod.snd) (σ.checkChildren site (children.zip slots)) := by
  induction h with
  | nil => exact .nil
  | @cons entry held children slots hentry hrest ih =>
    obtain ⟨slot, node, check⟩ := entry
    obtain ⟨rfl, hpasses⟩ := hentry
    rw [List.zip_cons_cons, checkChildren, if_neg (not_not.mpr rfl)]
    dsimp only
    rw [checkPlace_eq_ok (hplaces held List.mem_cons_self), ok_bind]
    rw [List.map_cons] at hnodup ⊢
    refine Passes.append hclimbs (fun c hc => ?_) hnodup hpasses
      (ih (List.nodup_cons.mp hnodup).2 fun held' hheld' =>
        hplaces held' (List.mem_cons_of_mem _ hheld'))
    rw [List.singleton_append, ← List.map_cons, List.mem_map] at hc
    obtain ⟨held', hheld', rfl⟩ := hc
    exact ⟨_, _, hplaces held' hheld'⟩

/-- The blocks of a branch pass when they correspond to those of the document. -/
theorem checkBlocks_eq_ok {ν : Handle → Option Node} {blocks : List (Block Node Node)}
    {states : List (Block Node Handle)} (site : BranchRef)
    (h : List.Forall₂ (Block.Corresponds Eq (Labels ν)) blocks states)
    (hpopulated : (Property.blockList blocks).Populated)
    (hnodes : ∀ node ∈ (Property.blockList blocks).nodes, node.WellFormed) :
    checkBlocks site blocks states = .ok () := by
  rw [checkBlocks, if_neg (not_not.mpr h.length_eq)]
  dsimp only
  rw [forM_eq_ok]
  rintro ⟨⟨content, state⟩, block⟩ hmem
  have hzip : (content, state) ∈ blocks.zip states :=
    (List.mem_zipIdx hmem).2.2 ▸ List.getElem_mem _
  obtain ⟨hheader, hmembers⟩ := List.forall₂_zip h hzip
  have hcontent := (List.of_mem_zip hzip).1
  have hwell : ∀ node, node = content.header.pattern ∨ node = content.header.source →
      node.WellFormed := fun node hnode => hnodes node (by
    rw [Edit.mem_nodes_blockList]
    exact ⟨content, hcontent, hnode.imp_right .inl⟩)
  -- The states keep the headers as they are, so the two are the same.
  have hsame : content.header.same state.header = true := by
    rw [← hheader]
    exact Header.same_refl (Node.same_refl (hwell _ (.inl rfl)))
      (Node.same_refl (hwell _ (.inr rfl)))
  have hinhabited : state.members ≠ [] := fun hnil =>
    hpopulated content hcontent (List.length_eq_zero_iff.mp (by rw [hmembers.length_eq, hnil]; rfl))
  rw [if_neg (by simpa using hinhabited)]
  dsimp only
  rw [if_neg (by simp [hsame, hmembers.length_eq])]
  rfl

/-- The check of the state of a node goes on with its branches. -/
theorem checkNode_eq {grammar : Grammar} {node : Node} {found : List (String × Property Node)}
    (hfound : grammar.branches node = .ok found) {state : State} (hstate : σ.get? h = some state)
    (hstage : state.stage = .ready) (hlength : found.length = state.inners.length) :
    σ.checkNode grammar node h = (σ.checkBranches h ((found.map fun entry =>
      (entry.1, entry.2.map fun child => (child, σ.checkNode grammar child))).zip
        state.inners) >>= fun n => .ok (1 + n)) := by
  cases node with
  | mk kind properties =>
    rw [checkNode, Node.fold_mk, Grammar.browse_map_children,
      show grammar.browse kind properties = .ok found from hfound]
    simp only [heldState, hstate, ok_bind, hstage, Except.map, mapError_ok, List.length_map,
      hlength, ne_eq, not_true_eq_false, if_false]
    rfl

end Store

namespace Standing

variable {grammar : Grammar} {root o h : Handle} {σ : Store} {ν : Handle → Option Node}
  {path : Path} {name : String}

/-- The slot of an optional child without a node passes. -/
theorem checkVacant_passes (hσ : Standing grammar root σ ν ∅ ∅) (hclimbs : σ.Climbs h path)
    (hlabel : ν h = none) : σ.Passes [h] (σ.checkVacant h) := by
  obtain ⟨state, hstate⟩ := hclimbs.live
  have hsettled := hσ.settled h state hstate (Set.notMem_empty h)
  rw [hlabel] at hsettled
  cases hsettled with
  | vacant stage branches =>
    have hnone : ∀ c, σ.Child h c ↔ c ∈ [] := fun c => by
      simp only [List.not_mem_nil, iff_false]
      rintro ⟨name, slot, hat⟩
      obtain ⟨branch, hbranch, -⟩ := (hσ.linked h ⟨state, hstate⟩ (Set.notMem_empty h) name slot
        c).mp hat
      rw [Store.branch?, hstate, Option.bind_some, branches] at hbranch
      cases hbranch
    have hpasses := Store.Passes.cons hclimbs hnone .nil
    rw [Store.checkVacant, Store.heldState, hstate]
    dsimp only
    rw [ok_bind, if_pos ⟨stage, List.map_eq_nil_iff.mp branches⟩]
    exact hpasses

/-- A branch that was made for its owner passes when its children do. -/
theorem checkBranch_passes (hσ : Standing grammar root σ ν ∅ ∅) (hclimbs : σ.Climbs o path)
    {P : Property Node} {branch : Branch} (hreflects : Reflects ν P branch)
    (hpopulated : P.Populated) (hnodes : ∀ node ∈ P.nodes, node.WellFormed)
    (hplaces : ∀ slot c, branch.childAt? slot = some c →
      σ.place? c = some (.within o name slot)) (hnodup : branch.children.Nodup)
    {check : Node → Check} (hchecks : ∀ slot node c, P.childAt? slot = some node →
      branch.childAt? slot = some c → ν c = some node → σ.Passes [c] (check node c)) :
    σ.Passes branch.children
      (σ.checkBranch o name (P.map fun node => (node, check node)) name ⟨o, branch⟩) := by
  have hheld : ¬ (name ≠ name ∨ (P.map fun node => (node, check node)).kind ≠ branch.kind ∨
      o ≠ o) := by
    simp [hreflects.kind_eq]
  -- In a branch that is not that of an optional child every slot has a node and a state.
  have hchildren {violation : Violation} {rest : PUnit → Except Violation Nat}
      (hpairs : List.Forall₂ (fun a b => a.1 = b.1 ∧ Labels ν a.2 b.2) P.children branch.slots) :
      σ.Passes branch.children
        (if (P.map fun node => (node, check node)).children.length ≠ branch.slots.length then
          throw violation >>= rest
        else σ.checkChildren ⟨o, name⟩
          ((P.map fun node => (node, check node)).children.zip branch.slots)) := by
    rw [Property.children_map, List.length_map, if_neg (not_not.mpr hpairs.length_eq)]
    refine Store.checkChildren_passes hclimbs hnodup
      (fun held hheld => hplaces _ _ (Branch.mem_slots.mp hheld)) ?_
    rw [List.forall₂_map_left_iff]
    refine (forall₂_attach hpairs).imp fun entry held ⟨hentry, hheld, hslot, hlabel⟩ => ⟨hslot, ?_⟩
    exact hchecks entry.1 entry.2 held.2 (Property.mem_children.mp hentry)
      (Branch.mem_slots.mp (hslot ▸ hheld)) hlabel
  unfold Store.checkBranch
  rw [if_neg hheld]
  cases hreflects with
  | placeholder label => exact hchildren (.cons ⟨rfl, label⟩ .nil)
  | @optional assigned item child label =>
    have hplace := hplaces .optional child rfl
    dsimp only [Property.map]
    rw [Store.checkPlace_eq_ok hplace, ok_bind]
    cases assigned with
    | false => exact hσ.checkVacant_passes (.within hplace hclimbs) label
    | true =>
      cases item with
      | none => exact hσ.checkVacant_passes (.within hplace hclimbs) label
      | some node => exact hchecks .optional node child rfl rfl label
  | list labels => exact hchildren (forall₂_listSlots labels)
  | @blockList blocks states labels =>
    have hblocks :
        (blocks.map (Block.map fun node => (node, check node))).map (Block.map Prod.fst) =
          blocks := by
      simp [Function.comp_def, Block.map, Header.map]
    dsimp only [Property.map]
    rw [hblocks, Store.checkBlocks_eq_ok _ labels hpopulated hnodes, ok_bind]
    exact hchildren (forall₂_blockSlots labels)

/-- The branches of a state pass when their children do. -/
theorem checkBranches_passes (hσ : Standing grammar root σ ν ∅ ∅) (hclimbs : σ.Climbs o path)
    {check : Node → Check} {found : List (String × Property Node)}
    {inners : List (String × Inner)} (howned : ∀ held ∈ inners, held.2.owner = o)
    (hmatches : List.Forall₂ (fun entry held => Matches ν entry (held.1, held.2.branch)) found
      inners)
    (hfound : ∀ entry ∈ found, entry.2.Populated ∧ (∀ node ∈ entry.2.nodes, node.WellFormed) ∧
      ∀ slot node c, entry.2.childAt? slot = some node → ν c = some node → σ.Live c →
        σ.Passes [c] (check node c))
    (hplaces : ∀ held ∈ inners, ∀ slot c, held.2.branch.childAt? slot = some c →
      σ.place? c = some (.within o held.1 slot))
    (hnodup : (inners.flatMap fun held => held.2.branch.children).Nodup) :
    σ.Passes (inners.flatMap fun held => held.2.branch.children) (σ.checkBranches o
      ((found.map fun entry => (entry.1, entry.2.map fun node => (node, check node))).zip
        inners)) := by
  -- By induction on the entries, with all children so far counted once.
  induction hmatches with
  | nil => exact .nil
  | @cons entry held found inners hmatch _ ih =>
    obtain ⟨name, P⟩ := entry
    obtain ⟨name', owner, branch⟩ := held
    obtain rfl : name = name' := hmatch.name
    obtain rfl : owner = o := howned _ List.mem_cons_self
    have hchildren : ∀ c ∈ ((name, ⟨owner, branch⟩) :: inners).flatMap fun held =>
        held.2.branch.children, σ.Child owner c := fun c hc => by
      obtain ⟨held, hheld, hc⟩ := List.mem_flatMap.mp hc
      obtain ⟨slot, hslot⟩ := Branch.mem_children.mp hc
      exact ⟨_, slot, hplaces held hheld slot c hslot⟩
    rw [List.flatMap_cons] at hnodup hchildren ⊢
    obtain ⟨hpopulated, hnodes, hchecks⟩ := hfound _ List.mem_cons_self
    have hplace := hplaces _ List.mem_cons_self
    rw [List.map_cons, List.zip_cons_cons, Store.checkBranches]
    refine Store.Passes.append hclimbs hchildren hnodup
      (hσ.checkBranch_passes hclimbs hmatch.reflects hpopulated hnodes hplace
        hnodup.of_append_left fun slot node c hnode hc hlabel => ?_)
      (ih (fun held hheld => howned held (List.mem_cons_of_mem _ hheld))
        (fun entry hentry => hfound entry (List.mem_cons_of_mem _ hentry))
        (fun held hheld => hplaces held (List.mem_cons_of_mem _ hheld)) hnodup.of_append_right)
    exact hchecks slot node c hnode hlabel (Store.live_of_place? (hplace slot c hc))

/-- The children of a state are those that its branches hold. -/
theorem child_iff (hσ : Standing grammar root σ ν ∅ ∅) {state : State}
    (hstate : σ.get? h = some state) (c : Handle) :
    σ.Child h c ↔ c ∈ state.branches.flatMap fun held => held.2.children := by
  constructor
  · rintro ⟨name, slot, hat⟩
    obtain ⟨branch, hbranch, hslot⟩ :=
      (hσ.linked h ⟨state, hstate⟩ (Set.notMem_empty h) name slot c).mp hat
    rw [Store.branch?, hstate, Option.bind_some] at hbranch
    exact List.mem_flatMap.mpr ⟨(name, branch), Table.mem_of_get? hbranch,
      Branch.mem_children.mpr ⟨slot, hslot⟩⟩
  · exact hσ.place?_of_child hstate (Set.notMem_empty h)

/-- A state and everything below it pass the check of its node. -/
theorem checkNode_passes (hσ : Standing grammar root σ ν ∅ ∅) (node : Node)
    (hnode : node.WellFormed) (hvalid : grammar.Valid node) (hlive : σ.Live h)
    (hlabel : ν h = some node) : σ.Passes [h] (σ.checkNode grammar node h) := by
  -- By induction on the node: what is below a state is checked with the nodes below its node.
  induction node using Node.induct generalizing h with
  | step node ih =>
    obtain ⟨state, hstate⟩ := hlive
    obtain ⟨path, hclimbs⟩ := hσ.rooted h ⟨state, hstate⟩
    have hsettled := hσ.settled h state hstate (Set.notMem_empty h)
    rw [hlabel] at hsettled
    cases hsettled with
    | @ready _ found stage keys shape reflects =>
      have hfound : ∀ entry ∈ found, grammar.branch? node entry.1 = some entry.2 :=
        fun entry hentry => (Grammar.mem_branches hnode.keys shape).mp hentry
      have hheld : ∀ held ∈ state.inners, ∀ slot c, held.2.branch.childAt? slot = some c →
          σ.place? c = some (.within h held.1 slot) := fun held hheld slot c =>
        hσ.place?_of_entry hstate (Set.notMem_empty h)
          (List.mem_map_of_mem (f := fun held => (held.1, held.2.branch)) hheld)
      have hchild := hσ.child_iff hstate
      have hnodup := hσ.nodup_children hstate (Set.notMem_empty h)
      rw [State.branches, List.flatMap_map] at hchild hnodup
      have hmatches := List.forall₂_map_right_iff.mp reflects
      rw [Store.checkNode_eq shape hstate stage hmatches.length_eq]
      refine .cons hclimbs hchild (hσ.checkBranches_passes hclimbs (hσ.owned h state hstate)
        hmatches ?_ hheld hnodup)
      intro entry hentry
      have hfits := hvalid.fits hnode.keys (hfound entry hentry)
      have hmem := Table.mem_of_get?
        (Grammar.property?_of_branch? hnode.keys (hfound entry hentry))
      have hbelow : ∀ child ∈ entry.2.nodes, child.WellFormed := fun child => hnode.child hmem
      refine ⟨hfits.populated, hbelow, fun slot child c hchild hlabel hlive => ?_⟩
      have hnodes := Property.mem_nodes_of_childAt? hchild
      exact ih _ hmem child hnodes (hbelow child hnodes) (hfits.admits slot child hchild).valid
        hlive hlabel

end Standing

namespace Editor

variable {editor : Editor} {ν : Handle → Option Node}

/-- States that stand for the document of an editor pass its check. -/
theorem verify_of_standing (hσ : Standing editor.grammar editor.root editor.store ν ∅ ∅)
    (hdocument : ν editor.root = some editor.document) (hwellFormed : editor.document.WellFormed)
    (hvalid : editor.grammar.Valid editor.document) : editor.verify = .ok () := by
  have hroot := hσ.climbs_root
  have hregister : editor.store.checkRegister = .ok () := forM_eq_ok.mpr fun entry hentry => by
    obtain ⟨state, hstate, hplace⟩ := Store.place?_eq_some.mp
      (hσ.registered entry.1 entry.2 ((Table.mem_iff_get? hσ.keys).mp hentry))
    dsimp only
    rw [hstate]
    exact if_pos hplace
  have hstates : editor.store.checkStates = .ok () := forM_eq_ok.mpr fun entry hentry => by
    have hstate : editor.store.get? entry.1 = some entry.2 := Arena.mem_toList.mp hentry
    exact if_pos (hσ.enrolled _ _ (Store.place?_eq_some.mpr ⟨entry.2, hstate, rfl⟩)
      (Set.notMem_empty _))
  obtain ⟨below, hcount, hnodup, hbelow⟩ := hσ.checkNode_passes editor.document
    hwellFormed hvalid hroot.live hdocument
  -- What the descent counts is everything below the root, and that is every state.
  have hall : below.Perm editor.store.arena.handles :=
    (List.perm_ext_iff_of_nodup hnodup (Arena.nodup_handles _)).mpr fun g => by
      rw [hbelow, Arena.mem_handles]
      constructor
      · rintro ⟨hlive, -⟩
        exact hlive
      · intro hlive
        obtain ⟨path, hpath⟩ := hσ.rooted g hlive
        exact ⟨hlive, _, List.mem_singleton_self _,
          (hσ.under_iff hroot hpath).mpr List.nil_prefix⟩
  rw [verify, hregister, hstates, hcount, stateCount, ← Arena.length_handles hσ.arena,
    hall.length_eq]
  exact if_neg (not_not.mpr rfl)

/-- The states of an editor pass its check. -/
theorem Mirrors.verify (hmirrors : editor.Mirrors ν) : editor.verify = .ok () :=
  verify_of_standing hmirrors.standing hmirrors.document hmirrors.wellFormed hmirrors.valid

end Editor

end TreeEditor
