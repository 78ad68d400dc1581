import TreeEditor.Proofs.Locus
import TreeEditor.Proofs.ReadingBack

/-!
# Insertions into the states

A node is put into a list or block by making a state for it, putting the state into the branch and
giving all children the places that their slots now are, and growing the states of the node below it
(`Locus.insert`). The states that come are those below the new one: whatever else is live afterwards
was live before, and its parent too.
-/

namespace TreeEditor

/-- The members of a block that the states have without its last members can be made. -/
theorem Standing.growNodes {editor : Editor} {root o : Handle} {σ : Store}
    {ν : Handle → Option Node} {H U : Set Handle} {name : String} {block : Nat}
    (hgrammar : editor.grammar.Distinct) (hσ : Standing editor.grammar root σ ν H U) (hopen : o ∈ H)
    {states : List (Block Node Handle)} {content : Block Node Handle}
    (hbranch : σ.branch? o name = some (.blockList states))
    (hcontent : states[block]? = some content) (nodes : List Node)
    (hnodes : ∀ node ∈ nodes, node.WellFormed ∧ editor.grammar.Valid node)
    (hfree : ∀ g i, content.members.length ≤ i →
      σ.place? g ≠ some (.within o name (.member block i))) :
    ∃ handles σ' ν', editor.growNodes o name block (nodes.zipIdx content.members.length) σ =
        .ok σ' ∧
      Standing editor.grammar root σ' ν' H U ∧ List.Forall₂ (Labels ν') nodes handles ∧
      σ.Plants ν σ' ν' o (State.setBranch o name (.blockList (Blocks.setMembers block
          (content.members ++ handles) states))) name
        fun slot child => ∃ i, slot = .member block (content.members.length + i) ∧
          handles[i]? = some child := by
  induction nodes generalizing σ ν states content with
  | nil =>
    obtain ⟨state, hstate, hget⟩ := Option.bind_eq_some_iff.mp hbranch
    have hnone : σ.Plants ν σ ν o id name fun slot child =>
        ∃ i, slot = .member block (content.members.length + i) ∧
          ([] : List Handle)[i]? = some child := .refl σ ν o name (by simp)
    refine ⟨[], σ, ν, rfl, hσ, .nil, { hnone with owner := ?_ }⟩
    rw [List.append_nil, Blocks.setMembers_self hcontent, hstate, Option.map_some,
      State.setBranch_self hget]
  | cons node nodes ih =>
    obtain ⟨hnode, hvalid⟩ := hnodes node List.mem_cons_self
    obtain ⟨state, hstate, hget⟩ := Option.bind_eq_some_iff.mp hbranch
    obtain ⟨c, σ₁, σ₂, ν₂, hallocate, hsettle, hσ₂, hlabel, hplants₂⟩ := hσ.plant hopen
      ⟨state, hstate⟩ (fun g => hfree g _ le_rfl)
      (.some (Grammar.growsAs hgrammar.branches root node hnode hvalid))
      (fun c => State.setBranch o name (.blockList
        (Blocks.setMembers block (content.members ++ [c]) states))) (fun _ _ => rfl)
      fun c _ howned => howned.setBranch name _
    -- With the new member the block is one longer, so the next one follows it.
    have hstate₂ : σ₂.get? o = some (state.setBranch o name (.blockList
        (Blocks.setMembers block (content.members ++ [c]) states))) := by
      rw [hplants₂.owner, hstate]
      rfl
    have hcontent₂ : (Blocks.setMembers block (content.members ++ [c]) states)[block]? =
        some ⟨content.header, content.members ++ [c]⟩ := by
      rw [Blocks.getElem?_setMembers, if_pos rfl, hcontent]
      rfl
    obtain ⟨handles, σ', ν', hrest, hσ', hlabels, hplants'⟩ := ih
      (hσ₂.announce (.inserted (.within o name (.member block content.members.length)) c))
      (by
        rw [Store.branch?, Store.get?_announce, hstate₂, Option.bind_some,
          State.branches_setBranch, Table.get?_set_same]) hcontent₂
      (fun node hmem => hnodes node (List.mem_cons_of_mem _ hmem))
      (fun g i hi hat => by
        rw [List.length_append, List.length_singleton] at hi
        rcases (hplants₂.stands g name (.member block i)).mp hat with hat | ⟨-, heq, -⟩
        · exact hfree g i (by omega) hat
        · have := (Slot.member.inj heq).2
          omega)
    rw [List.length_append, List.length_singleton] at hrest hplants'
    have hboth := hplants₂.trans hplants'.of_announce
    have hc : σ₂.Live c := Store.live_of_place?
      ((hplants₂.stands c name _).mpr (.inr ⟨rfl, rfl, rfl⟩))
    refine ⟨c :: handles, σ', ν', ?_, hσ',
      .cons ((hplants'.grows.labels c hc).trans hlabel) hlabels, .congr { hboth with owner := ?_ }
        fun _ _ => exists_slot_cons (.member block) content.members.length⟩
    · have hbranch₁ : σ₁.branch? o name = some (.blockList states) := by
        rw [Store.branch?_of_allocate hσ.arena hallocate ⟨state, hstate⟩, hbranch]
      rw [List.zipIdx_cons, Editor.growNodes]
      dsimp only
      rw [hallocate]
      dsimp only
      rw [Store.modifyBlocks_ok hbranch₁ (Blocks.insertMember_length c hcontent), ok_bind]
      rw [show σ₁.setBranch o name (.blockList (Blocks.setMembers block (content.members ++ [c])
        states)) = σ₁.modify o _ from rfl, hsettle, ok_bind, hrest]
    · rw [hboth.owner]
      congr 1
      funext state
      simp only [Function.comp, State.setBranch_setBranch, Blocks.setMembers_setMembers,
        List.append_assoc, List.singleton_append]

namespace Store

variable {σ σ' : Store} {o c : Handle} {name : String} {branch : Branch}

/-- Setting a branch of another state leaves a state bare. -/
theorem Bare.setBranch (h : σ.Bare c) (hne : c ≠ o) (name : String) (branch : Branch) :
    (σ.setBranch o name branch).Bare c where
  state := by
    rw [get?_setBranch, if_neg hne]
    exact h.state
  leaf := fun child name' slot' hplace => h.leaf child name' slot' (by
    rwa [place?_setBranch] at hplace)

/-- Moving the children of another state to their slots leaves a state bare. -/
theorem Shifts.bare (h : σ.Shifts σ' o name branch) (hne : c ≠ o)
    (hchildren : ∀ child ∈ branch.children, ∃ slot, σ.place? child = some (.within o name slot))
    (hbare : σ.Bare c) : σ'.Bare c where
  state := by
    obtain ⟨state, hstate, hempty⟩ := hbare.state
    have hbranches := h.branches c
    rw [hstate, Option.map_some, hempty] at hbranches
    exact Option.map_eq_some_iff.mp hbranches
  leaf := fun child name' slot' hplace => by
    by_cases hchild : child ∈ branch.children
    · obtain ⟨slot, hslot⟩ := Branch.mem_children.mp hchild
      obtain ⟨_, hplace'⟩ := hchildren child hchild
      rw [h.place?_moved hslot (live_of_place? hplace')] at hplace
      cases hplace
      exact hne rfl
    · rw [h.place?_kept hchild] at hplace
      exact hbare.leaf child name' slot' hplace

end Store

namespace Locus

variable {editor : Editor} {ν : Handle → Option Node} {address : BranchPath}

section Entry

variable (locus : Locus editor ν address) {slot : Slot} {c : Handle} {σ₁ : Store}
  {ν₁ ν₂ : Handle → Option Node} {branch' : Branch}
  (hmakes : editor.store.Makes ν₁ σ₁ ν₂ c (.within locus.owner address.property slot))
  (hbranch' : locus.branch.insert address.property slot c = .ok branch')

include hmakes hbranch'

/-- With a new state in it the branch has for children what stands under its name once the state is
made. -/
theorem mem_children_insert (child : Handle) : child ∈ branch'.children ↔
    ∃ slot', σ₁.place? child = some (.within locus.owner address.property slot') := by
  rw [(Branch.insert_perm hbranch').mem_iff, List.mem_cons, Branch.mem_children]
  simp only [hmakes.stands_iff, locus.stands_iff, true_and]
  constructor
  · rintro (rfl | ⟨slot', hslot'⟩)
    · exact ⟨slot, .inl ⟨rfl, rfl⟩⟩
    · exact ⟨slot', .inr hslot'⟩
  · rintro ⟨slot', ⟨rfl, -⟩ | hslot'⟩
    · exact .inl rfl
    · exact .inr ⟨slot', hslot'⟩

/-- The new state is not in the branch already. -/
theorem nodup_children_insert : branch'.children.Nodup := by
  rw [(Branch.insert_perm hbranch').nodup_iff, List.nodup_cons, Branch.mem_children]
  refine ⟨?_, locus.nodup⟩
  rintro ⟨slot', hslot'⟩
  exact Store.not_live.mpr hmakes.new (Store.live_of_place? (locus.stands_iff.mpr hslot'))

/-- The owner is no child of its own. -/
theorem owner_notMem_insert : locus.owner ∉ branch'.children := by
  intro hmem
  obtain ⟨slot', hplace⟩ := (locus.mem_children_insert hmakes hbranch' _).mp hmem
  rcases (hmakes.stands_iff _ _ _).mp hplace with ⟨heq, -⟩ | hplace
  · exact hmakes.ne locus.climbs.live heq
  · exact locus.not_under hplace .refl

end Entry

/-- A node can be put into a list or block. -/
theorem insert (locus : Locus editor ν address) {slot : Slot} {node : Node} {P' : Property Node}
    (hinsert : locus.property.insertAt slot node = some P')
    (hkind : P'.kind = locus.property.kind)
    (hnode : node.WellFormed) (hvalid : editor.grammar.Valid node) :
    ∃ c σ₁ σ₂ σ₃ σ', editor.store.allocate (.within locus.owner address.property slot) = (c, σ₁) ∧
      σ₁.modifyBranch locus.owner address.property (Branch.insert address.property slot c) =
        .ok σ₂ ∧
      σ₂.reindex locus.owner address.property = .ok σ₃ ∧
      σ₃.settle (.within locus.owner address.property slot) c (some (editor.grammar.growth node)) =
        .ok σ' ∧
      locus.Becomes (.insert address slot node) P' σ' := by
  obtain ⟨ν₁, hν₁, hroot₁, hlabel₁, hothers₁⟩ :=
    locus.reopen (locus.node.set address.property P')
  obtain ⟨c, σ₁, ν₂, hallocate, hσ₁, hmakes, hbare, hc⟩ := hν₁.make (Set.mem_singleton locus.owner)
    locus.climbs.live address.property slot (some node)
  have howner : locus.owner ≠ c := hmakes.ne locus.climbs.live
  -- The branch takes the new state where the property takes the node.
  obtain ⟨branch', hbranch', hreflects'⟩ := (locus.reflects_of_kept fun child hlive hnot =>
    (hmakes.labels child (hmakes.ne hlive)).trans (hothers₁ child hnot)).insert hc hinsert
      address.property
  have howner₁ : σ₁.get? locus.owner = editor.store.get? locus.owner := by
    rw [hmakes.get?, if_neg howner]
  have hlive₁ : σ₁.Live locus.owner := by
    rw [Store.Live, howner₁]
    exact locus.climbs.live
  have hheld₁ : σ₁.branch? locus.owner address.property = some locus.branch := by
    rw [Store.branch?, howner₁]
    exact locus.held
  have hopen : locus.owner ∈ ({c, locus.owner} : Set Handle) :=
    Set.mem_insert_of_mem c (Set.mem_singleton locus.owner)
  have hmem : ∀ child, child ∈ branch'.children ↔ ∃ slot',
      (σ₁.setBranch locus.owner address.property branch').place? child =
        some (.within locus.owner address.property slot') := fun child => by
    simpa only [Store.place?_setBranch] using locus.mem_children_insert hmakes hbranch' child
  have hnew : branch'.childAt? slot = some c := Branch.childAt?_insert hbranch'
  obtain ⟨σ₃, hreindex, hσ₃, hshifts⟩ := (hσ₁.setBranch hopen address.property branch').reindex
    hopen (Store.branch?_setBranch hlive₁ address.property branch')
    (locus.nodup_children_insert hmakes hbranch') (fun child hchild => (hmem child).mp hchild)
    (fun g hg => hg.imp_left fun heq : g = c => heq ▸ Branch.mem_children.mpr ⟨slot, hnew⟩)
    (fun g slot' hplace => .inl ((hmem g).mpr ⟨slot', hplace⟩))
  -- The new state has not got anything from its siblings' moves, so it can grow now.
  have hbare₃ : σ₃.Bare c := hshifts.bare howner.symm (fun child hchild => (hmem child).mp hchild)
    (hbare.setBranch howner.symm address.property branch')
  obtain ⟨σ', ν', hsettle, hσ', hgrows⟩ := hσ₃.settle hbare₃ (by
      rw [hc]
      exact .some (Grammar.growsAs locus.mirrors.distinct.branches _ node hnode hvalid))
    (.within locus.owner address.property slot)
  have hc' : σ'.place? c = some (.within locus.owner address.property slot) :=
    hgrows.place.trans ((hshifts.stands hmem c slot).mpr hnew)
  have hunder' : ¬ σ'.Under c locus.owner := by
    obtain ⟨path, hclimbs⟩ := hσ'.rooted c (Store.live_of_place? hc')
    exact Store.not_under_parent hclimbs hc'
  have hlive₃ : ∀ h, editor.store.Live h → σ₃.Live h := fun h hh => by
    obtain ⟨place, hplace⟩ := hh.place?
    rw [hshifts.live, Store.live_setBranch]
    exact Store.live_of_place? (hmakes.place?_mono hplace)
  have hlabels : ∀ h, editor.store.Live h → ν' h = ν₁ h := fun h hh =>
    (hgrows.labels h (hlive₃ h hh)).trans (hmakes.labels h (hmakes.ne hh))
  have hreshaped : locus.Reshaped (.insert address slot node) P' branch' (fun g => g = c) σ' ν' := {
    standing := hσ'
    root := (hlabels _ locus.live_root).trans hroot₁
    label := (hlabels _ locus.climbs.live).trans hlabel₁
    owner := by
      rw [hgrows.kept _ (hlive₃ _ locus.climbs.live) howner,
        hshifts.kept _ (locus.owner_notMem_insert hmakes hbranch'), Store.get?_setBranch,
        Store.get?_setBranch, if_pos rfl, if_pos rfl, howner₁]
    reflects := hreflects'.congr fun slot' child hchild => hgrows.labels child (by
      obtain ⟨_, hplace⟩ := (hmem child).mp (Branch.mem_children.mpr ⟨slot', hchild⟩)
      exact (hshifts.live child).mpr (Store.live_of_place? hplace))
    stands := fun child slot' => by rw [hgrows.stands_iff hunder', hshifts.stands hmem]
    others := fun child other slot' hne => by
      rw [hgrows.stands_iff hunder', hshifts.others hmem hne, Store.place?_setBranch,
        hmakes.stands_iff]
      simp [hne]
    places := fun h hh _ => by
      have hplace₂ : (σ₁.setBranch locus.owner address.property branch').place? h =
          editor.store.place? h := by
        rw [Store.place?_setBranch, hmakes.place?, if_neg (hmakes.ne hh)]
      rw [hgrows.place?_eq (hlive₃ h hh), ← hplace₂]
      exact hshifts.places hmem ((hshifts.live h).mp (hlive₃ h hh))
    labels := fun h path hclimbs _ htouches => (hlabels h hclimbs.live).trans
      (hothers₁ h (locus.not_under_of_touches rfl hclimbs htouches))
    rewrites := .insert (Store.not_live.mpr hmakes.new) hbranch'
    bodies := fun h _ hclimbs _ _ hne => by
      have hh := hclimbs.live
      have hkept := hgrows.kept h (hlive₃ h hh) (hmakes.ne hh)
      rw [Store.body?, hkept, ← Store.body?, hshifts.body?, Store.body?_setBranch hne, Store.body?,
        hmakes.get?, if_neg (hmakes.ne hh), Store.body?]
    gone := fun h hh => by simp [hgrows.live (hlive₃ h hh), Edit.Discards]
    fresh := by
      rintro g rfl
      exact Store.not_live.mpr hmakes.new
    below := fun h hh => by
      rcases hgrows.below h hh with hh | hunder
      · rw [hshifts.live, Store.live_setBranch] at hh
        exact (hmakes.live hh).elim (fun heq => .inr ⟨c, rfl, heq ▸ .refl⟩) .inl
      · exact .inr ⟨c, rfl, hunder⟩
    installs := fun _ hclimbs _ _ _ =>
      (show σ'.Climbs c (address.child slot) from .within hc' hclimbs).prefix_iff }
  exact ⟨c, σ₁, _, σ₃, σ', hallocate, Store.modifyBranch_ok hheld₁ hbranch', hreindex, hsettle,
    hreshaped.becomes rfl hkind⟩

/-- A block can be put into a list of blocks. It comes without members, and they are made one by
one. -/
theorem insertBlock (locus : Locus editor ν address) {block : Nat} {content : Block Node Node}
    {blocks blocks' : List (Block Node Node)} {states : List (Block Node Handle)}
    (hblocks : locus.property = .blockList blocks) (hstates : locus.branch = .blockList states)
    (hinsert : Blocks.insertBlock block content blocks = .ok blocks')
    (hnodes : ∀ node ∈ content.members, node.WellFormed ∧ editor.grammar.Valid node) :
    ∃ σ₁ σ₂ σ', editor.store.modifyBlocks locus.owner address.property
        (Blocks.insertBlock block ⟨content.header, []⟩) = .ok σ₁ ∧
      σ₁.reindex locus.owner address.property = .ok σ₂ ∧
      editor.growNodes locus.owner address.property block content.members.zipIdx
        (σ₂.announce (.blockCreated ⟨locus.owner, address.property⟩ block)) = .ok σ' ∧
      locus.Becomes (.insertBlock address block content) (.blockList blocks') σ' := by
  obtain ⟨hle, rfl⟩ := insertItem_eq_ok.mp hinsert
  obtain ⟨ν₁, hν₁, hroot₁, hlabel₁, hothers₁⟩ :=
    locus.reopen (locus.node.set address.property (.blockList (blocks.insertIdx block content)))
  have hlength : blocks.length = states.length := by
    obtain ⟨_, hproperty, hcorrespond⟩ := locus.exists_blocks hstates
    cases hblocks.symm.trans hproperty
    exact hcorrespond.length_eq
  have hle' : block ≤ states.length := hlength ▸ hle
  have hempty : Blocks.insertBlock block ⟨content.header, []⟩ states =
      .ok (states.insertIdx block ⟨content.header, []⟩) := insertItem_eq_ok.mpr ⟨hle', rfl⟩
  have hcontent : (states.insertIdx block ⟨content.header, []⟩)[block]? =
      some ⟨content.header, []⟩ := by
    rw [List.getElem?_insertIdx_self, if_pos hle']
  -- An empty block brings no children, so the states that stand there are given their places first.
  have hperm : (Branch.blockList (states.insertIdx block ⟨content.header, []⟩)).children.Perm
      locus.branch.children := by
    rw [hstates, Branch.children_blockList, Branch.children_blockList]
    exact Blocks.insertBlock_perm hempty
  obtain ⟨σ₂, hreindex, hσ₂, hshifts, hmem⟩ := locus.reseat hν₁ hperm
  have howner₂ : σ₂.get? locus.owner = (editor.store.setBranch locus.owner address.property
      (.blockList (states.insertIdx block ⟨content.header, []⟩))).get? locus.owner :=
    hshifts.kept _ fun hchild => by
      obtain ⟨slot, hplace⟩ := (hmem _).mp hchild
      rw [Store.place?_setBranch] at hplace
      exact locus.not_under hplace .refl
  have hbranch₂ : σ₂.branch? locus.owner address.property =
      some (.blockList (states.insertIdx block ⟨content.header, []⟩)) := by
    rw [Store.branch?, howner₂, ← Store.branch?]
    exact Store.branch?_setBranch locus.climbs.live _ _
  obtain ⟨handles, σ', ν', hgrow, hσ', hlabels, hplants⟩ := (hσ₂.announce (.blockCreated
    ⟨locus.owner, address.property⟩ block)).growNodes locus.mirrors.distinct
    (Set.mem_singleton locus.owner) hbranch₂ hcontent content.members hnodes
    fun g i _ (hat : σ₂.place? g = _) => by
      rw [hshifts.stands hmem, Branch.childAt?, hcontent] at hat
      cases hat
  replace hplants := hplants.of_announce
  rw [List.nil_append, Blocks.setMembers_insertIdx _ _ hle'] at hplants
  have hlive₂ : ∀ h, editor.store.Live h → σ₂.Live h := fun h hh => by
    rwa [hshifts.live, Store.live_setBranch]
  have hkept : ∀ h, editor.store.Live h → ν' h = ν₁ h := fun h hh =>
    hplants.grows.labels h (hlive₂ h hh)
  have hstands : ∀ child slot, σ'.place? child =
      some (.within locus.owner address.property slot) ↔
        (Branch.blockList (states.insertIdx block ⟨content.header, handles⟩)).childAt? slot =
          some child := by
    intro child slot
    rw [hplants.stands, hshifts.stands hmem]
    cases slot with
    | member other position =>
      by_cases hother : other = block
      · simp [hother, Branch.childAt?, List.getElem?_insertIdx_self, hle']
      · simp [hother, Branch.childAt?, List.getElem?_insertIdx]
    | _ => simp [Branch.childAt?]
  have hmember : ∀ position, (Branch.blockList (states.insertIdx block
      ⟨content.header, handles⟩)).childAt? (.member block position) = handles[position]? := by
    intro position
    rw [Branch.childAt?, List.getElem?_insertIdx_self, if_pos hle']
    rfl
  have hreflects := locus.reflects_of_kept fun child hlive hnot =>
    (hkept child hlive).trans (hothers₁ child hnot)
  rw [hblocks, hstates] at hreflects
  have hnew : ∀ c ∈ handles, ¬ editor.store.Live c := fun c hc hlive => by
    obtain ⟨i, hi⟩ := List.mem_iff_getElem?.mp hc
    exact Store.not_live.mpr (hplants.new _ c ⟨i, rfl, hi⟩) (hlive₂ c hlive)
  have hreshaped : locus.Reshaped (.insertBlock address block content)
      (.blockList (blocks.insertIdx block content))
      (.blockList (states.insertIdx block ⟨content.header, handles⟩)) (fun g => g ∈ handles) σ'
      ν' := {
    standing := hσ'
    root := (hkept _ locus.live_root).trans hroot₁
    label := (hkept _ locus.climbs.live).trans hlabel₁
    owner := by
      rw [hplants.owner, howner₂, Store.get?_setBranch, Store.get?_setBranch, if_pos rfl,
        if_pos rfl, Option.map_map]
      congr 1
      funext state
      exact State.setBranch_setBranch state _ _ _ _
    reflects := by
      cases hreflects with
      | blockList labels => exact .blockList (forall₂_insertIdx labels ⟨rfl, hlabels⟩ block)
    stands := hstands
    others := fun child other slot hne => by
      rw [hplants.stands, hshifts.others hmem hne, Store.place?_setBranch]
      simp [hne]
    places := fun h hh _ => by
      rw [hplants.grows.place?_eq (hlive₂ h hh)]
      simpa using hshifts.places hmem (by rwa [Store.live_setBranch])
    labels := fun h path hclimbs _ htouches => (hkept h hclimbs.live).trans
      (hothers₁ h (locus.not_under_of_touches rfl hclimbs htouches))
    rewrites := hstates ▸ .insertBlock hlabels.length_eq.symm hnew
      (insertItem_eq_ok.mpr ⟨hle', rfl⟩)
    bodies := fun h _ hclimbs _ _ hne => by
      rw [Store.body?, hplants.grows.kept h (hlive₂ h hclimbs.live) hne, ← Store.body?,
        hshifts.body?, Store.body?_setBranch hne]
    gone := fun h hh => by simp [hplants.grows.live (hlive₂ h hh), Edit.Discards]
    fresh := hnew
    below := fun h hh => by
      rcases hplants.below h hh with hh | ⟨slot, c, ⟨i, -, hi⟩, hunder⟩
      · rw [hshifts.live, Store.live_setBranch] at hh
        exact .inl hh
      · exact .inr ⟨c, List.mem_of_getElem? hi, hunder⟩
    installs := fun hclosed hclimbs g path hg => by
      have hmembers : ∀ position d, σ'.Climbs d (address.child (.member block position)) ↔
          handles[position]? = some d := fun position d => by
        rw [← hmember, ← hstands]
        exact hclosed.climbs_within_iff hclimbs
      refine (hclosed.exists_member_iff hmembers hg).trans ?_
      simp only [hclosed.under_iff_above hg, exists_and_left] }
  exact ⟨_, σ₂, σ', Store.modifyBlocks_ok (hstates ▸ locus.held) hempty, hreindex, hgrow,
    hreshaped.becomes rfl (by rw [hblocks]; rfl)⟩

end Locus

end TreeEditor
