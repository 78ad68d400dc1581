import TreeEditor.Editor.Apply
import TreeEditor.Proofs.Growth
import TreeEditor.Proofs.Preservation
import TreeEditor.Proofs.Reindex
import TreeEditor.Proofs.Relabel
import TreeEditor.Proofs.Removal

/-!
# The place of an edit

An edit is made at a property of one node. `Locus` gathers what the document and the states have
there. To make the edit the states above that node are put under the changed nodes (`Locus.reopen`),
the store is taken through the steps of the edit with the owner of the branch open, and in the end
the owner is closed (`Locus.close`).

`Store.Turns` says what an edit does to the states as a whole: which go, which come, and that all
others stand for the nodes they stood for and where they stood, apart from those that change places
in the property of the edit.
-/

namespace TreeEditor

/-- The branch of a state is changed by setting the changed branch. -/
theorem Store.modifyBranch_ok {σ : Store} {o : Handle} {name : String} {branch branch' : Branch}
    {change : Branch → Except Refusal Branch} (hbranch : σ.branch? o name = some branch)
    (hchange : change branch = .ok branch') :
    σ.modifyBranch o name change = .ok (σ.setBranch o name branch') := by
  unfold Store.modifyBranch
  rw [Store.branch_eq_ok.mpr hbranch, orRefuse_ok, ok_bind, hchange]
  rfl

/-- The blocks of a state are changed by setting the changed blocks. -/
theorem Store.modifyBlocks_ok {σ : Store} {o : Handle} {name : String}
    {states states' : List (Block Node Handle)}
    {change : List (Block Node Handle) → Except Refusal (List (Block Node Handle))}
    (hbranch : σ.branch? o name = some (.blockList states))
    (hchange : change states = .ok states') :
    σ.modifyBlocks o name change = .ok (σ.setBranch o name (.blockList states')) := by
  refine Store.modifyBranch_ok hbranch ?_
  rw [Branch.blocks, ok_bind, hchange]
  rfl

namespace Edit

/-- An edit removes the state that has a path. -/
def Discards (edit : Edit) (path : Path) : Prop :=
  match edit with
  | remove branch slot _ | replace branch slot _ _ => branch.child slot <+: path
  | removeBlock branch block _ => ∃ position, branch.child (.member block position) <+: path
  | unassign branch _ _ => branch.child .optional <+: path ∧ path ≠ branch.child .optional
  | _ => False

/-- An edit makes a state for a path. -/
def Installs (edit : Edit) (path : Path) : Prop :=
  match edit with
  | insert branch slot _ | replace branch slot _ _ => branch.child slot <+: path
  | insertBlock branch block _ => ∃ position, branch.child (.member block position) <+: path
  | assign branch _ _ => branch.child .optional <+: path ∧ path ≠ branch.child .optional
  | _ => False

/-- An edit changes the node at a path: that of its owner, those above it, and the one in the slot
of an optional child. -/
def Touches (edit : Edit) (path : Path) : Prop :=
  path <+: edit.site.owner ∨
    match edit with
    | assign branch _ _ | unassign branch _ _ => path = branch.child .optional
    | _ => False

/-- An edit gives the state with that path branches or takes them away: that of the slot of an
optional child. -/
def Toggles (edit : Edit) (path : Path) : Prop :=
  match edit with
  | assign branch _ _ | unassign branch _ _ => path = branch.child .optional
  | _ => False

/-- How an edit changes the branch of its property. Some states are given up by the branch and
others are taken in; the members of a block that comes or goes are as many as the edit records. -/
inductive Rewrites (gone came : Handle → Prop) : Edit → Branch → Branch → Prop
  | insert {branch : BranchPath} {slot : Slot} {node : Node} {c : Handle} {old new : Branch}
    (entered : came c) (put : old.insert branch.property slot c = .ok new) :
    Rewrites gone came (.insert branch slot node) old new
  | remove {branch : BranchPath} {slot : Slot} {node : Node} {c : Handle} {old new : Branch}
    (left : gone c) (taken : old.remove branch.property slot = .ok (c, new)) :
    Rewrites gone came (.remove branch slot node) old new
  | replace {branch : BranchPath} {slot : Slot} {before after : Node} {c d : Handle}
    {old new : Branch} (left : gone c) (entered : came d)
    (put : old.replaceChild branch.property slot d = .ok (c, new)) :
    Rewrites gone came (.replace branch slot before after) old new
  | move {branch : BranchPath} {slot : Slot} {delta : Int} {target : Nat} {old new : Branch}
    (moved : old.move branch.property slot delta = .ok (target, new)) :
    Rewrites gone came (.move branch slot delta) old new
  | assign {branch : BranchPath} {before : Option Node} {after : Node} {held : Branch} :
    Rewrites gone came (.assign branch before after) held held
  | unassign {branch : BranchPath} {item : Node} {restore : Option Node} {held : Branch} :
    Rewrites gone came (.unassign branch item restore) held held
  | insertBlock {branch : BranchPath} {block : Nat} {content : Block Node Node}
    {members : List Handle} {old new : List (Block Node Handle)}
    (count : members.length = content.members.length) (entered : ∀ c ∈ members, came c)
    (put : Blocks.insertBlock block ⟨content.header, members⟩ old = .ok new) :
    Rewrites gone came (.insertBlock branch block content) (.blockList old) (.blockList new)
  | removeBlock {branch : BranchPath} {block : Nat} {content : Block Node Node}
    {removed : Block Node Handle} {old new : List (Block Node Handle)}
    (count : removed.members.length = content.members.length)
    (left : ∀ c ∈ removed.members, gone c)
    (taken : Blocks.removeBlock block old = .ok (removed, new)) :
    Rewrites gone came (.removeBlock branch block content) (.blockList old) (.blockList new)
  | splitBlock {branch : BranchPath} {block position : Nat} {header : Header Node}
    {old new : List (Block Node Handle)}
    (split : Blocks.split block position header old = .ok new) :
    Rewrites gone came (.splitBlock branch block position header) (.blockList old) (.blockList new)
  | mergeBlocks {branch : BranchPath} {block position : Nat} {header : Header Node}
    {old new : List (Block Node Handle)} (merged : Blocks.merge block old = .ok (position, new)) :
    Rewrites gone came (.mergeBlocks branch block position header) (.blockList old) (.blockList new)
  | moveBlock {branch : BranchPath} {block target : Nat} {delta : Int}
    {old new : List (Block Node Handle)}
    (moved : Blocks.moveBlock block delta old = .ok (target, new)) :
    Rewrites gone came (.moveBlock branch block delta) (.blockList old) (.blockList new)
  | changeReplication {branch : BranchPath} {block : Nat} {before after : Replication}
    {old new : List (Block Node Handle)} (set : Blocks.setReplication block after old = .ok new) :
    Rewrites gone came (.changeReplication branch block before after) (.blockList old)
      (.blockList new)
  | setValue {owner : Path} {property : String} {before after : Leaf} {held : Branch} :
    Rewrites gone came (.setValue owner property before after) held held

/-- An edit changes no node under another property of its owner. -/
theorem not_touches_child {edit : Edit} {other : String} {slot : Slot}
    (hne : other ≠ edit.site.property) : ¬ edit.Touches (edit.site.owner ++ [⟨other, slot⟩]) := by
  have hprefix : ¬ edit.site.owner ++ [⟨other, slot⟩] <+: edit.site.owner := fun hprefix => by
    simpa using hprefix.length_le
  rintro (habove | hoptional)
  · exact hprefix habove
  · cases edit with
    | assign branch before after =>
      have hstep := (List.append_inj' hoptional rfl).2
      simp only [List.cons.injEq, Step.mk.injEq] at hstep
      exact hne hstep.1.1
    | unassign branch item restore =>
      have hstep := (List.append_inj' hoptional rfl).2
      simp only [List.cons.injEq, Step.mk.injEq] at hstep
      exact hne hstep.1.1
    | _ => exact hoptional

end Edit

/-- An edit changes the branch of its property and no other one of a state that stays, apart from
the state that it gives branches or takes them from. -/
structure Store.Revises (edit : Edit) (σ σ' : Store) (owner : Handle) : Prop where
  climbs : σ.Climbs owner edit.site.owner
  site : Option.Rel (edit.Rewrites (fun c => ¬ σ'.Live c) (fun c => ¬ σ.Live c))
    (σ.branch? owner edit.site.property) (σ'.branch? owner edit.site.property)
  kept : ∀ h path, σ.Climbs h path → σ'.Live h → ¬ edit.Toggles path →
    σ'.stage? h = σ.stage? h ∧ ∀ name, h ≠ owner ∨ name ≠ edit.site.property →
      σ'.branch? h name = σ.branch? h name

/-- The states that an edit removes are gone, those that it makes are new, and all others stand for
the nodes they stood for, unless the edit changes them, and stay in their places, unless they are
moved from one slot of the property to another. The branches of states are changed accordingly. -/
structure Store.Turns (edit : Edit) (σ : Store) (ν : Handle → Option Node) (σ' : Store)
    (ν' : Handle → Option Node) : Prop where
  gone : ∀ h, σ.Live h → (σ'.Live h ↔ ¬ ∃ path, σ.Climbs h path ∧ edit.Discards path)
  came : ∀ h, σ'.Live h → (¬ σ.Live h ↔ ∃ path, σ'.Climbs h path ∧ edit.Installs path)
  labels : ∀ h path, σ.Climbs h path → σ'.Live h → ¬ edit.Touches path → ν' h = ν h
  places : ∀ h, σ.Live h → σ'.Live h → σ'.place? h = σ.place? h ∨
    ∃ owner slot slot', σ.Climbs owner edit.site.owner ∧
      σ.place? h = some (.within owner edit.site.property slot) ∧
        σ'.place? h = some (.within owner edit.site.property slot')
  revises : ∃ owner, σ.Revises edit σ' owner

/-- What the document and the states of an editor have at a property of a node. -/
structure Locus (editor : Editor) (ν : Handle → Option Node) (address : BranchPath) where
  mirrors : editor.Mirrors ν
  owner : Handle
  node : Node
  property : Property Node
  branch : Branch
  climbs : editor.store.Climbs owner address.owner
  label : ν owner = some node
  shaped : editor.grammar.branch? node address.property = some property
  held : editor.store.branch? owner address.property = some branch

namespace Locus

variable {editor : Editor} {ν ν' : Handle → Option Node} {address : BranchPath}

/-- The state of the document is live. -/
theorem live_root (locus : Locus editor ν address) : editor.store.Live editor.root :=
  Store.live_of_place? ((locus.mirrors.standing.root_iff _).mpr rfl)

/-- There is a locus wherever a state has a branch. -/
theorem exists_of_branch? (hmirrors : editor.Mirrors ν) {owner : Handle} {branch : Branch}
    (hclimbs : editor.store.Climbs owner address.owner)
    (hheld : editor.store.branch? owner address.property = some branch) :
    ∃ locus : Locus editor ν address, locus.owner = owner ∧ locus.branch = branch := by
  have hσ := hmirrors.standing
  cases hlabel : ν owner with
  | none =>
    obtain ⟨state, hstate⟩ := hclimbs.live
    have hsettled := hσ.settled owner state hstate (Set.notMem_empty owner)
    rw [hlabel] at hsettled
    cases hsettled with
    | vacant stage branches =>
      rw [Store.branch?, hstate, Option.bind_some, branches] at hheld
      cases hheld
  | some node =>
    have hrel := hσ.rel_branch? hclimbs.live hlabel address.property
    rw [hheld, rel_some_right] at hrel
    obtain ⟨P, hP, -⟩ := hrel
    exact ⟨⟨hmirrors, owner, node, P, branch, hclimbs, hlabel, hP, hheld⟩, rfl, rfl⟩

/-- The document has the node at the path. -/
theorem reach (locus : Locus editor ν address) :
    editor.grammar.reach editor.document address.owner = some locus.node := by
  rw [← locus.mirrors.standing.label_of_climbs locus.mirrors.document locus.climbs, locus.label]

/-- The node gives its properties different names. -/
theorem wellFormed (locus : Locus editor ν address) :
    locus.node.WellFormed := Grammar.wellFormed_reach locus.mirrors.wellFormed locus.reach

/-- The node has the property. -/
theorem property? (locus : Locus editor ν address) :
    locus.node.property? address.property = some locus.property :=
  Grammar.property?_of_branch? locus.wellFormed.keys locus.shaped

/-- The branch reflects the property. -/
theorem reflects (locus : Locus editor ν address) :
    Reflects ν locus.property locus.branch := by
  have hrel := locus.mirrors.standing.rel_branch? locus.climbs.live locus.label address.property
  rw [locus.shaped, locus.held] at hrel
  cases hrel with
  | some hreflects => exact hreflects

/-- The children of the branch stand in its slots, and nothing else does. -/
theorem stands_iff (locus : Locus editor ν address) {child : Handle}
    {slot : Slot} : editor.store.place? child =
      some (.within locus.owner address.property slot) ↔
        locus.branch.childAt? slot = some child := by
  rw [locus.mirrors.standing.linked locus.owner locus.climbs.live (Set.notMem_empty _), locus.held]
  simp

/-- What stands in a slot of the branch is what has the path of the slot. -/
theorem climbs_child_iff (locus : Locus editor ν address) {child : Handle} {slot : Slot} :
    editor.store.Climbs child (address.child slot) ↔
      editor.store.place? child = some (.within locus.owner address.property slot) :=
  locus.mirrors.standing.climbs_within_iff locus.climbs

/-- No child of a state is above it. -/
theorem not_under (locus : Locus editor ν address) {child : Handle}
    {name : String} {slot : Slot}
    (hplace : editor.store.place? child = some (.within locus.owner name slot)) :
    ¬ editor.store.Under child locus.owner := by
  obtain ⟨path, hclimbs⟩ := locus.mirrors.standing.rooted child (Store.live_of_place? hplace)
  exact Store.not_under_parent hclimbs hplace

/-- The branch goes on to reflect the property while states that are not above the owner stand for
the nodes they stood for. -/
theorem reflects_of_kept (locus : Locus editor ν address)
    (hkept : ∀ child, editor.store.Live child → ¬ editor.store.Under child locus.owner →
      ν' child = ν child) : Reflects ν' locus.property locus.branch :=
  locus.reflects.congr fun slot child hchild => by
    have hplace := locus.stands_iff.mpr hchild
    exact hkept child (Store.live_of_place? hplace) (locus.not_under hplace)

/-- A branch of blocks stands for a list of blocks. -/
theorem exists_blocks (locus : Locus editor ν address) {states : List (Block Node Handle)}
    (hstates : locus.branch = .blockList states) :
    ∃ blocks, locus.property = .blockList blocks ∧
      List.Forall₂ (Block.Corresponds Eq (Labels ν)) blocks states :=
  reflects_blockList.mp (hstates ▸ locus.reflects)

/-- A branch of an optional child stands for an item. -/
theorem exists_item (locus : Locus editor ν address) {child : Handle}
    (hchild : locus.branch = .optional child) :
    ∃ assigned item, locus.property = .optional assigned item ∧
      ν child = if assigned then item else none :=
  reflects_optional.mp (hchild ▸ locus.reflects)

/-- The child of a branch of an optional child is in the optional slot. -/
theorem childAt?_optional (locus : Locus editor ν address) {child : Handle}
    (hchild : locus.branch = .optional child) :
    locus.branch.childAt? .optional = some child := by
  rw [hchild]
  rfl

/-- No child is the owner. -/
theorem ne_owner (locus : Locus editor ν address) {child : Handle} {name : String} {slot : Slot}
    (hplace : editor.store.place? child = some (.within locus.owner name slot)) :
    child ≠ locus.owner := by
  rintro rfl
  exact locus.not_under hplace .refl

/-- The state of the document is in no slot. -/
theorem root_ne (locus : Locus editor ν address) {child : Handle} {name : String} {slot : Slot}
    (hplace : editor.store.place? child = some (.within locus.owner name slot)) :
    editor.root ≠ child := by
  rintro rfl
  rw [(locus.mirrors.standing.root_iff _).mpr rfl] at hplace
  cases hplace

/-- Every child of the branch stands in it once. -/
theorem nodup (locus : Locus editor ν address) :
    locus.branch.children.Nodup := by
  obtain ⟨state, hstate⟩ := locus.climbs.live
  have hbranch := locus.held
  rw [Store.branch?, hstate, Option.bind_some] at hbranch
  have hnodup := locus.mirrors.standing.nodup_children hstate (Set.notMem_empty _)
  exact (List.nodup_flatMap.mp hnodup).1 _ (Table.mem_of_get? hbranch)

/-- The owner can be opened with its node changed. -/
theorem reopen (locus : Locus editor ν address) (new : Node) :
    ∃ ν', Standing editor.grammar editor.root editor.store ν' {locus.owner} ∅ ∧
      ν' editor.root = some (editor.document.put address.owner new) ∧ ν' locus.owner = some new ∧
      ∀ h, ¬ editor.store.Under h locus.owner → ν' h = ν h :=
  locus.mirrors.standing.reopen locus.mirrors.document locus.mirrors.wellFormed locus.climbs
    locus.label new

/-- The owner can be closed when its branch reflects the changed property and holds what stands in
its slots. -/
theorem close (locus : Locus editor ν address) {σ' : Store}
    {U : Set Handle} {P' : Property Node} {branch' : Branch} (hkind : P'.kind = locus.property.kind)
    (hσ' : Standing editor.grammar editor.root σ' ν' {locus.owner} U)
    (hlabel : ν' locus.owner = some (locus.node.set address.property P'))
    (howner : σ'.get? locus.owner = (editor.store.setBranch locus.owner address.property
      branch').get? locus.owner)
    (hreflects : Reflects ν' P' branch')
    (hstands : ∀ child other slot, σ'.place? child = some (.within locus.owner other slot) ↔
      (other = address.property ∧ branch'.childAt? slot = some child) ∨
        (other ≠ address.property ∧
          editor.store.place? child = some (.within locus.owner other slot)))
    (hlabels : ∀ child other slot, other ≠ address.property →
      editor.store.place? child = some (.within locus.owner other slot) → ν' child = ν child) :
    Standing editor.grammar editor.root σ' ν' ∅ U := by
  obtain ⟨state, hstate⟩ := locus.climbs.live
  rw [Store.get?_setBranch, if_pos rfl, hstate, Option.map_some] at howner
  refine locus.mirrors.standing.close_owner hstate locus.label locus.wellFormed locus.shaped
    hkind hσ' howner hlabel rfl (state.branches_setBranch _ _ _) hreflects (fun child slot => ?_)
    (fun child other slot hne => ?_) hlabels
  · rw [hstands]
    simp
  · rw [hstands]
    simp [hne]

/-- A state that an edit leaves its node is not above the owner. -/
theorem not_under_of_touches (locus : Locus editor ν address) {edit : Edit}
    (hsite : edit.site = address) {h : Handle} {path : Path} (hclimbs : editor.store.Climbs h path)
    (htouches : ¬ edit.Touches path) : ¬ editor.store.Under h locus.owner := by
  rw [locus.mirrors.standing.under_iff hclimbs locus.climbs, ← hsite]
  exact fun hprefix => htouches (.inl hprefix)

/-- What an edit makes of the states: they stand for the changed document and have turned over as
the edit says. -/
def Becomes (locus : Locus editor ν address) (edit : Edit) (P' : Property Node) (σ' : Store) :
    Prop :=
  ∃ ν', Standing editor.grammar editor.root σ' ν' ∅ ∅ ∧
    ν' editor.root = some (editor.document.put address.owner
      (locus.node.set address.property P')) ∧ editor.store.Turns edit ν σ' ν'

/-- The states after the steps of an edit, before the owner of the branch is closed. New states are
given by those that no other new state is above of. -/
structure Reshaped (locus : Locus editor ν address) (edit : Edit) (P' : Property Node)
    (branch' : Branch) (new : Handle → Prop) (σ' : Store) (ν' : Handle → Option Node) : Prop where
  standing : Standing editor.grammar editor.root σ' ν' {locus.owner} ∅
  root : ν' editor.root = some (editor.document.put address.owner
    (locus.node.set address.property P'))
  label : ν' locus.owner = some (locus.node.set address.property P')
  owner : σ'.get? locus.owner =
    (editor.store.setBranch locus.owner address.property branch').get? locus.owner
  reflects : Reflects ν' P' branch'
  /-- The branch holds what stands in its slots. -/
  stands : ∀ child slot, σ'.place? child =
    some (.within locus.owner address.property slot) ↔ branch'.childAt? slot = some child
  /-- In the slots of the other branches stands what stood there. -/
  others : ∀ child other slot, other ≠ address.property →
    (σ'.place? child = some (.within locus.owner other slot) ↔
      editor.store.place? child = some (.within locus.owner other slot))
  /-- States that stay move at most from one slot of the branch to another. -/
  places : ∀ h, editor.store.Live h → σ'.Live h → σ'.place? h = editor.store.place? h ∨
    ∃ slot slot', editor.store.place? h = some (.within locus.owner address.property slot) ∧
      σ'.place? h = some (.within locus.owner address.property slot')
  labels : ∀ h path, editor.store.Climbs h path → σ'.Live h → ¬ edit.Touches path → ν' h = ν h
  rewrites : edit.Rewrites (fun c => ¬ σ'.Live c) (fun c => ¬ editor.store.Live c) locus.branch
    branch'
  bodies : ∀ h path, editor.store.Climbs h path → σ'.Live h → ¬ edit.Toggles path →
    h ≠ locus.owner → σ'.body? h = editor.store.body? h
  gone : ∀ h, editor.store.Live h →
    (σ'.Live h ↔ ¬ ∃ path, editor.store.Climbs h path ∧ edit.Discards path)
  fresh : ∀ c, new c → ¬ editor.store.Live c
  below : ∀ h, σ'.Live h → editor.store.Live h ∨ ∃ c, new c ∧ σ'.Under c h
  installs : Standing editor.grammar editor.root σ' ν' ∅ ∅ →
    σ'.Climbs locus.owner address.owner → ∀ g path, σ'.Climbs g path →
      (edit.Installs path ↔ ∃ c up, new c ∧ σ'.Climbs c up ∧ up <+: path)

namespace Reshaped

variable {locus : Locus editor ν address} {edit : Edit} {P' : Property Node} {branch' : Branch}
  {new : Handle → Prop} {σ' : Store}

/-- The way up from the owner has stayed. -/
theorem climbs (h : locus.Reshaped edit P' branch' new σ' ν') :
    σ'.Climbs locus.owner address.owner := by
  have hup : ∀ g path, σ'.Climbs g path → editor.store.Under g locus.owner →
      editor.store.Climbs g path := by
    intro g path hclimbs hunder
    -- No child of the branch is above the owner, so no state on the way has moved.
    have hplace : ∀ g, σ'.Live g → editor.store.Under g locus.owner →
        σ'.place? g = editor.store.place? g := by
      intro g hlive hunder
      obtain ⟨up, -, hup, -⟩ := hunder.climbs locus.climbs
      refine (h.places g hup.live hlive).resolve_right ?_
      rintro ⟨slot, slot', hplace, -⟩
      exact locus.not_under hplace hunder
    induction hclimbs with
    | root hat => exact .root ((hplace _ (Store.live_of_place? hat) hunder).symm.trans hat)
    | within hat _ ih =>
      have hat' := (hplace _ (Store.live_of_place? hat) hunder).symm.trans hat
      exact .within hat' (ih (.trans (.within hat' .refl) hunder))
  have hlive : σ'.Live locus.owner := by
    obtain ⟨state, hstate⟩ := locus.climbs.live
    exact ⟨_, by rw [h.owner, Store.get?_setBranch, if_pos rfl, hstate]; rfl⟩
  obtain ⟨path, hclimbs⟩ := h.standing.rooted _ hlive
  rwa [locus.climbs.unique (hup _ path hclimbs .refl)]

/-- The parent of a state that was live was live. -/
theorem parent_live (h : locus.Reshaped edit P' branch' new σ' ν') {g parent : Handle}
    {name : String} {slot : Slot} (hlive : editor.store.Live g)
    (hplace : σ'.place? g = some (.within parent name slot)) : editor.store.Live parent := by
  rcases h.places g hlive (Store.live_of_place? hplace) with hsame | ⟨_, _, -, hmoved⟩
  · exact locus.mirrors.standing.parent_live (hsame.symm.trans hplace)
  · rw [hplace] at hmoved
    cases hmoved
    exact locus.climbs.live

/-- The states that came are those whose paths lead through the place of a new one. -/
theorem came (h : locus.Reshaped edit P' branch' new σ' ν')
    (hσ' : Standing editor.grammar editor.root σ' ν' ∅ ∅) {g : Handle} (hlive : σ'.Live g) :
    ¬ editor.store.Live g ↔ ∃ path, σ'.Climbs g path ∧ edit.Installs path := by
  constructor
  · intro hnot
    obtain ⟨c, hc, hunder⟩ := (h.below g hlive).resolve_left hnot
    obtain ⟨path, hclimbs⟩ := hσ'.rooted g hlive
    obtain ⟨up, hup, hprefix⟩ := (hσ'.under_iff_above hclimbs).mp hunder
    exact ⟨path, hclimbs,
      (h.installs hσ' h.climbs g path hclimbs).mpr ⟨c, up, hc, hup, hprefix⟩⟩
  · rintro ⟨path, hclimbs, hinstalls⟩
    obtain ⟨c, up, hc, hup, hprefix⟩ := (h.installs hσ' h.climbs g path hclimbs).mp hinstalls
    have hunder := (hσ'.under_iff hup hclimbs).mpr hprefix
    clear hclimbs hprefix hlive
    -- Going up from a state that was live never meets a new one.
    induction hunder with
    | refl => exact h.fresh c hc
    | within hplace _ ih => exact fun hlive => ih (h.parent_live hlive hplace)

/-- The branches are changed as the edit says. -/
theorem revises (h : locus.Reshaped edit P' branch' new σ' ν') (hsite : edit.site = address) :
    editor.store.Revises edit σ' locus.owner := by
  subst hsite
  refine ⟨locus.climbs, ?_, fun g path hclimbs hlive htoggles => ?_⟩
  · have hleft : σ'.branch? locus.owner edit.site.property = some branch' := by
      rw [Store.branch?, h.owner, ← Store.branch?]
      exact Store.branch?_setBranch locus.climbs.live edit.site.property branch'
    rw [locus.held, hleft]
    exact .some h.rewrites
  · by_cases hg : g = locus.owner
    · subst hg
      refine ⟨?_, fun name hname => ?_⟩
      · rw [Store.stage?, h.owner, Store.get?_setBranch, if_pos rfl, Option.map_map]
        rfl
      · rw [Store.branch?, h.owner, ← Store.branch?]
        exact Store.branch?_setBranch_of_ne edit.site.property branch'
          (hname.resolve_left (not_not.mpr rfl))
    · have hbody := h.bodies g path hclimbs hlive htoggles hg
      exact ⟨Store.stage?_of_body? hbody, fun name _ => Store.branch?_of_body? hbody name⟩

/-- The owner can be closed. -/
theorem becomes (h : locus.Reshaped edit P' branch' new σ' ν') (hsite : edit.site = address)
    (hkind : P'.kind = locus.property.kind) : locus.Becomes edit P' σ' := by
  have hσ' := locus.close hkind h.standing h.label h.owner h.reflects
    (fun child other slot => ?_) fun child other slot hne hplace => ?_
  · subst hsite
    exact ⟨ν', hσ', h.root, h.gone, fun g hlive => h.came hσ' hlive, h.labels,
      fun g hlive hlive' => (h.places g hlive hlive').imp_right fun ⟨slot, slot', hslots⟩ =>
        ⟨locus.owner, slot, slot', locus.climbs, hslots⟩, locus.owner, h.revises rfl⟩
  · by_cases hother : other = address.property
    · rw [hother, h.stands]
      simp
    · rw [h.others child other slot hother]
      simp [hother]
  · have hclimbs : editor.store.Climbs child _ := .within hplace locus.climbs
    refine h.labels child _ hclimbs (Store.live_of_place? ((h.others child other slot hne).mpr
      hplace)) ?_
    exact hsite ▸ Edit.not_touches_child (hsite ▸ hne)

end Reshaped

/-- The branch can be set to one without new children, and the children given their places. Children
that are left out stay loose. -/
theorem shift (locus : Locus editor ν address) {σ : Store}
    (hσ : Standing editor.grammar editor.root σ ν' {locus.owner} ∅) {branch branch' : Branch}
    (hlive : σ.Live locus.owner) (hnodup : branch'.children.Nodup)
    (hstands : ∀ child slot, σ.place? child =
      some (.within locus.owner address.property slot) ↔ branch.childAt? slot = some child)
    (hsub : ∀ child ∈ branch'.children, child ∈ branch.children) :
    ∃ σ', (σ.setBranch locus.owner address.property branch').reindex locus.owner
        address.property = .ok σ' ∧
      Standing editor.grammar editor.root σ' ν' {locus.owner}
        {g | g ∈ branch.children ∧ g ∉ branch'.children} ∧
      (σ.setBranch locus.owner address.property branch').Shifts σ' locus.owner address.property
        branch' := by
  refine (hσ.setBranch (Set.mem_singleton locus.owner) address.property branch').reindex
    (Set.mem_singleton locus.owner) (Store.branch?_setBranch hlive address.property branch') hnodup
    (fun child hchild => ?_) nofun (fun g slot hplace => ?_)
  · obtain ⟨slot, hslot⟩ := Branch.mem_children.mp (hsub child hchild)
    exact ⟨slot, by rw [Store.place?_setBranch, hstands, hslot]⟩
  · rw [Store.place?_setBranch, hstands] at hplace
    by_cases hg : g ∈ branch'.children
    · exact .inl hg
    · exact .inr ⟨Branch.mem_children.mpr ⟨slot, hplace⟩, hg⟩

/-- The branch can be set to one with the same children, and the children given their places. -/
theorem reseat (locus : Locus editor ν address)
    (hσ : Standing editor.grammar editor.root editor.store ν' {locus.owner} ∅) {branch' : Branch}
    (hperm : branch'.children.Perm locus.branch.children) :
    ∃ σ', (editor.store.setBranch locus.owner address.property branch').reindex locus.owner
        address.property = .ok σ' ∧
      Standing editor.grammar editor.root σ' ν' {locus.owner} ∅ ∧
      (editor.store.setBranch locus.owner address.property branch').Shifts σ' locus.owner
        address.property branch' ∧
      ∀ child, child ∈ branch'.children ↔ ∃ slot,
        (editor.store.setBranch locus.owner address.property branch').place? child =
          some (.within locus.owner address.property slot) := by
  obtain ⟨σ', hreindex, hσ', hshifts⟩ := locus.shift hσ locus.climbs.live
    (hperm.nodup_iff.mpr locus.nodup) (fun _ _ => locus.stands_iff)
    (fun child hchild => hperm.mem_iff.mp hchild)
  refine ⟨σ', hreindex, hσ'.tighten fun g hg _ => absurd (hperm.mem_iff.mpr hg.1) hg.2, hshifts,
    fun child => ?_⟩
  simp only [hperm.mem_iff, Branch.mem_children, Store.place?_setBranch, locus.stands_iff]

/-- The children that stay in a branch can be given their slots there while others go. -/
theorem withdraw (locus : Locus editor ν address) {edit : Edit} (hsite : edit.site = address)
    (removed : List Handle) {P' : Property Node} {branch' : Branch} {σ' : Store}
    (hkind : P'.kind = locus.property.kind) (hreflects : Reflects ν P' branch')
    (hperm : locus.branch.children.Perm (removed ++ branch'.children))
    (hinstalls : ∀ path, ¬ edit.Installs path)
    (hdiscards : ∀ g, editor.store.Live g → ((∃ path, editor.store.Climbs g path ∧
      edit.Discards path) ↔ ∃ d ∈ removed, editor.store.Under d g))
    (hσ' : Standing editor.grammar editor.root σ' ν' {locus.owner} ∅)
    (hroot : ν' editor.root = some (editor.document.put address.owner
      (locus.node.set address.property P')))
    (hlabel : ν' locus.owner = some (locus.node.set address.property P'))
    (hlabels : ∀ h, ¬ editor.store.Under h locus.owner → ν' h = ν h)
    (hgone : ∀ d ∈ removed, ∀ g, editor.store.Under d g → ¬ σ'.Live g)
    (hkept : ∀ g, (∀ d ∈ removed, ¬ editor.store.Under d g) → g ∉ branch'.children →
      σ'.get? g = (editor.store.setBranch locus.owner address.property branch').get? g)
    (hbodies : ∀ g ∈ branch'.children, σ'.body? g = editor.store.body? g)
    (hrewrites : edit.Rewrites (fun c => ¬ σ'.Live c) (fun c => ¬ editor.store.Live c) locus.branch
      branch')
    (hmoved : ∀ slot child, branch'.childAt? slot = some child →
      σ'.place? child = some (.within locus.owner address.property slot)) :
    locus.Becomes edit P' σ' := by
  have hchildren : ∀ child, child ∈ removed ∨ child ∈ branch'.children ↔
      ∃ slot, editor.store.place? child = some (.within locus.owner address.property slot) := by
    intro child
    rw [← List.mem_append, ← hperm.mem_iff, Branch.mem_children]
    simp only [locus.stands_iff]
  have hstay : ∀ child ∈ branch'.children, σ'.Live child := fun child hchild => by
    obtain ⟨slot, hslot⟩ := Branch.mem_children.mp hchild
    exact Store.live_of_place? (hmoved slot child hslot)
  -- A state that is live afterwards and has not been given a slot is where it was.
  have hplace : ∀ g, σ'.Live g → g ∉ branch'.children → σ'.place? g = editor.store.place? g := by
    intro g hlive hg
    rw [Store.place?, hkept g (fun d hd hunder => hgone d hd g hunder hlive) hg, ← Store.place?,
      Store.place?_setBranch]
  have howner : ∀ d ∈ removed, ¬ editor.store.Under d locus.owner := fun d hd => by
    obtain ⟨slot, hat⟩ := (hchildren d).mp (.inl hd)
    exact locus.not_under hat
  have hreshaped : locus.Reshaped edit P' branch' (fun _ => False) σ' ν' := {
    standing := hσ'
    root := hroot
    label := hlabel
    owner := hkept locus.owner howner fun hmem => by
      obtain ⟨slot, hat⟩ := (hchildren _).mp (.inr hmem)
      exact locus.not_under hat .refl
    reflects := hreflects.congr fun slot child hchild => by
      obtain ⟨slot', hat⟩ := (hchildren child).mp (.inr (Branch.mem_children.mpr ⟨slot, hchild⟩))
      exact hlabels child (locus.not_under hat)
    stands := fun child slot => by
      refine ⟨fun hat => ?_, hmoved slot child⟩
      by_cases hchild : child ∈ branch'.children
      · obtain ⟨slot', hslot'⟩ := Branch.mem_children.mp hchild
        rw [hmoved slot' child hslot'] at hat
        cases hat
        exact hslot'
      · have hlive := Store.live_of_place? hat
        rw [hplace child hlive hchild] at hat
        have hremoved := ((hchildren child).mpr ⟨slot, hat⟩).resolve_right hchild
        exact absurd hlive (hgone child hremoved child .refl)
    others := fun child other slot hne => by
      have hout : ∀ {σ : Store} {slot' : Slot}, σ.place? child = some (.within locus.owner
          other slot) → σ.place? child ≠ some (.within locus.owner address.property slot') := by
        intro σ slot' hat hat'
        rw [hat] at hat'
        cases hat'
        exact hne rfl
      constructor
      · intro hat
        rwa [← hplace child (Store.live_of_place? hat) fun hchild => ?_]
        obtain ⟨slot', hslot'⟩ := Branch.mem_children.mp hchild
        exact hout hat (hmoved slot' child hslot')
      · intro hat
        have hnot : ¬ (child ∈ removed ∨ child ∈ branch'.children) := fun hmem => by
          obtain ⟨slot', hat'⟩ := (hchildren child).mp hmem
          exact hout hat hat'
        rw [not_or] at hnot
        rw [Store.place?, hkept child (fun d hd hunder => ?_) hnot.2, ← Store.place?,
          Store.place?_setBranch, hat]
        obtain ⟨slot', hat'⟩ := (hchildren d).mp (.inl hd)
        exact hnot.1 (Store.eq_of_under (.within hat' locus.climbs) hat' hat hunder ▸ hd)
    places := fun h hh hlive => by
      by_cases hchild : h ∈ branch'.children
      · obtain ⟨slot, hslot⟩ := Branch.mem_children.mp hchild
        obtain ⟨slot', hat⟩ := (hchildren h).mp (.inr hchild)
        exact .inr ⟨slot', slot, hat, hmoved slot h hslot⟩
      · exact .inl (hplace h hlive hchild)
    labels := fun h path hclimbs _ htouches =>
      hlabels h (locus.not_under_of_touches hsite hclimbs htouches)
    rewrites := hrewrites
    bodies := fun h path _ hlive _ hne => by
      by_cases hchild : h ∈ branch'.children
      · exact hbodies h hchild
      · rw [Store.body?, hkept h (fun d hd hunder => hgone d hd h hunder hlive) hchild,
          ← Store.body?, Store.body?_setBranch hne]
    gone := fun h hh => by
      rw [hdiscards h hh]
      constructor
      · rintro hlive ⟨d, hd, hbelow⟩
        exact hgone d hd h hbelow hlive
      · intro hnot
        by_cases hchild : h ∈ branch'.children
        · exact hstay h hchild
        · rw [Store.Live, hkept h (fun d hd hbelow => hnot ⟨d, hd, hbelow⟩) hchild, ← Store.Live,
            Store.live_setBranch]
          exact hh
    fresh := fun _ hnew => hnew.elim
    below := fun h hlive => by
      by_cases hchild : h ∈ branch'.children
      · obtain ⟨slot, hat⟩ := (hchildren h).mp (.inr hchild)
        exact .inl (Store.live_of_place? hat)
      · obtain ⟨place, hat⟩ := hlive.place?
        rw [hplace h hlive hchild] at hat
        exact .inl (Store.live_of_place? hat)
    installs := fun _ _ _ path _ => by simp [hinstalls] }
  exact hreshaped.becomes hsite hkind

/-- The children of a branch can be moved about in it. -/
theorem rearrange (locus : Locus editor ν address) (edit : Edit) (hsite : edit.site = address)
    (hdiscards : ∀ path, ¬ edit.Discards path) (hinstalls : ∀ path, ¬ edit.Installs path)
    {P' : Property Node} {branch' : Branch} (hkind : P'.kind = locus.property.kind)
    (hreflects : Reflects ν P' branch') (hperm : branch'.children.Perm locus.branch.children)
    (hrewrites : ∀ gone came, edit.Rewrites gone came locus.branch branch') :
    ∃ σ', (editor.store.setBranch locus.owner address.property branch').reindex locus.owner
        address.property = .ok σ' ∧ locus.Becomes edit P' σ' := by
  obtain ⟨ν₁, hσ₁, hroot₁, hlabel₁, hothers₁⟩ :=
    locus.reopen (locus.node.set address.property P')
  obtain ⟨σ₃, hreindex, hσ₃, hshifts, hmem⟩ := locus.reseat hσ₁ hperm
  have hbody : ∀ g ∈ branch'.children, (editor.store.setBranch locus.owner address.property
      branch').body? g = editor.store.body? g := fun g hg => by
    obtain ⟨slot, hslot⟩ := Branch.mem_children.mp (hperm.mem_iff.mp hg)
    exact Store.body?_setBranch (locus.ne_owner (locus.stands_iff.mpr hslot)) _ branch'
  exact ⟨σ₃, hreindex, locus.withdraw hsite [] hkind hreflects hperm.symm hinstalls
    (by simp [hdiscards]) hσ₃ hroot₁ hlabel₁ hothers₁ nofun (fun g _ hg => hshifts.kept g hg)
    (fun g hg => (hshifts.body? g).trans (hbody g hg)) (hrewrites _ _)
    fun slot child hslot => (hshifts.stands hmem child slot).mpr hslot⟩

end Locus

end TreeEditor
