import TreeEditor.Proofs.Locus

/-!
# Removals from the states

A child is taken out of a branch by setting the branch without it, removing its state with
everything below, and giving the remaining children the places that their slots now are
(`Locus.remove`). When a block goes the remaining children come first (`Locus.removeBlock`). The
states that go are those below the child, in the states as they were before: nothing else is below
it in between, since all that moves is apart from it.
-/

namespace TreeEditor.Locus

variable {editor : Editor} {ν : Handle → Option Node} {address : BranchPath}

/-- A child can be taken out of a list or block. -/
theorem remove (locus : Locus editor ν address) {slot : Slot} {held node : Node}
    {P' : Property Node} (hremove : locus.property.removeAt slot = some (held, P'))
    (hkind : P'.kind = locus.property.kind) :
    ∃ c branch' σ₂ σ', locus.branch.remove address.property slot = .ok (c, branch') ∧
      (editor.store.setBranch locus.owner address.property branch').destroy c = .ok σ₂ ∧
      σ₂.reindex locus.owner address.property = .ok σ' ∧
      locus.Becomes (.remove address slot node) P' σ' := by
  obtain ⟨ν₁, hν₁, hroot₁, hlabel₁, hothers₁⟩ :=
    locus.reopen (locus.node.set address.property P')
  obtain ⟨c, branch', hbranch', -, hreflects'⟩ := locus.reflects.remove hremove address.property
  have hperm := Branch.remove_perm hbranch'
  have hc : editor.store.place? c = some (.within locus.owner address.property slot) :=
    locus.stands_iff.mpr (Branch.childAt?_of_remove hbranch')
  have hnodup := locus.nodup
  rw [hperm.nodup_iff, List.nodup_cons] at hnodup
  have hplaces₁ : ∀ g, (editor.store.setBranch locus.owner address.property branch').place? g =
      editor.store.place? g := fun g => Store.place?_setBranch _ _ _ _
  obtain ⟨σ₂, hdestroy, hσ₂, hsweeps⟩ := (hν₁.setBranch (Set.mem_singleton locus.owner)
    address.property branch').destroy ((hplaces₁ c).trans hc) (Set.mem_singleton locus.owner)
    fun g hunder hg => by
      rw [Set.mem_singleton_iff.mp hg, Store.under_setBranch] at hunder
      exact locus.not_under hc hunder
  have hkept : ∀ g, ¬ editor.store.Under c g → σ₂.get? g =
      (editor.store.setBranch locus.owner address.property branch').get? g := fun g hg =>
    hsweeps.kept g fun d hd => by rwa [List.mem_singleton.mp hd, Store.under_setBranch]
  -- Of the states that stand in slots of the owner only the child itself is gone.
  have hstays : ∀ child ∈ branch'.children, ∃ slot',
      editor.store.place? child = some (.within locus.owner address.property slot') ∧
        ¬ editor.store.Under c child := by
    intro child hchild
    obtain ⟨slot', hslot'⟩ := Branch.mem_children.mp
      (hperm.mem_iff.mpr (List.mem_cons_of_mem c hchild))
    have hplace := locus.stands_iff.mpr hslot'
    refine ⟨slot', hplace, fun hunder => ?_⟩
    rw [Store.eq_of_under (.within hc locus.climbs) hc hplace hunder] at hchild
    exact hnodup.1 hchild
  have hplaces₂ : ∀ child ∈ branch'.children, ∃ slot',
      σ₂.place? child = some (.within locus.owner address.property slot') := by
    intro child hchild
    obtain ⟨slot', hplace, hunder⟩ := hstays child hchild
    exact ⟨slot', by rw [Store.place?, hkept child hunder, ← Store.place?, hplaces₁, hplace]⟩
  have hbranch₂ : σ₂.branch? locus.owner address.property = some branch' := by
    rw [Store.branch?, hkept _ (locus.not_under hc), ← Store.branch?]
    exact Store.branch?_setBranch locus.climbs.live address.property branch'
  obtain ⟨σ₃, hreindex, hσ₃, hshifts⟩ := hσ₂.reindex (Set.mem_singleton locus.owner)
    hbranch₂ hnodup.2 hplaces₂ (fun g (hg : g ∈ ∅) => .inr hg) fun g slot' hplace => .inl (by
      have hbefore := (hplaces₁ g).symm.trans (hsweeps.place?_mono hplace)
      have hmem := Branch.mem_children.mpr ⟨slot', locus.stands_iff.mp hbefore⟩
      refine (List.mem_cons.mp (hperm.mem_iff.mp hmem)).resolve_left ?_
      rintro rfl
      have hnone := hsweeps.gone g (List.mem_singleton_self g) g .refl
      rw [Store.place?, hnone] at hplace
      cases hplace)
  have hgone : ∀ g, editor.store.Under c g → ¬ σ₃.Live g := fun g hunder hlive => by
    obtain ⟨state, hstate⟩ := (hshifts.live g).mp hlive
    rw [hsweeps.gone c (List.mem_singleton_self c) g
      ((Store.under_setBranch _ _ _).mpr hunder)] at hstate
    cases hstate
  refine ⟨c, branch', σ₂, σ₃, hbranch', hdestroy, hreindex, locus.withdraw rfl [c] hkind
    hreflects' hperm (fun _ => id) (fun g hg => ?_) hσ₃ hroot₁ hlabel₁ hothers₁
    (fun d hd g hunder => ?_) (fun g hg hg' => ?_) (fun g hg => ?_)
    (.remove (hgone c .refl) hbranch') fun slot' child hslot' => ?_⟩
  · simp only [List.mem_singleton, exists_eq_left]
    exact (locus.mirrors.standing.under_iff_exists (.within hc locus.climbs) hg).symm
  · rw [List.mem_singleton.mp hd] at hunder
    exact hgone g hunder
  · rw [hshifts.kept g hg', hkept g (hg c (List.mem_singleton_self c))]
  · obtain ⟨slot', hplace, hunder⟩ := hstays g hg
    rw [hshifts.body?, Store.body?, hkept g hunder, ← Store.body?,
      Store.body?_setBranch (locus.ne_owner hplace)]
  · obtain ⟨_, hplace⟩ := hplaces₂ child (Branch.mem_children.mpr ⟨slot', hslot'⟩)
    exact hshifts.place?_moved hslot' (Store.live_of_place? hplace)

/-- A block can be taken out with its members. -/
theorem removeBlock (locus : Locus editor ν address) {block : Nat}
    {states states' : List (Block Node Handle)} {removed : Block Node Handle} {P' : Property Node}
    {content : Block Node Node} (hstates : locus.branch = .blockList states)
    (hremove : Blocks.removeBlock block states = .ok (removed, states'))
    (hcount : removed.members.length = content.members.length)
    (hreflects : Reflects ν P' (.blockList states')) :
    ∃ σ₂ σ', (editor.store.setBranch locus.owner address.property (.blockList states')).reindex
        locus.owner address.property = .ok σ₂ ∧
      Editor.destroyMembers locus.owner address.property block removed.members.zipIdx σ₂ = .ok σ' ∧
      locus.Becomes (.removeBlock address block content) P' σ' := by
  obtain ⟨ν₁, hν₁, hroot₁, hlabel₁, hothers₁⟩ :=
    locus.reopen (locus.node.set address.property P')
  have hkind : P'.kind = locus.property.kind := by
    rw [hreflects.kind_eq, locus.reflects.kind_eq, hstates]
    rfl
  have hperm : locus.branch.children.Perm
      (removed.members ++ (Branch.blockList states').children) := by
    rw [hstates, Branch.children_blockList, Branch.children_blockList]
    exact Blocks.removeBlock_perm hremove
  have hnodup := List.nodup_append.mp (hperm.nodup_iff.mp locus.nodup)
  have hmember : ∀ position d, editor.store.Climbs d (address.child (.member block position)) ↔
      removed.members[position]? = some d := by
    intro position d
    rw [locus.climbs_child_iff, locus.stands_iff, hstates, Branch.childAt?,
      (removeItem_eq_ok.mp hremove).1]
    rfl
  have hplaces : ∀ child, child ∈ removed.members ∨ child ∈ (Branch.blockList states').children →
      ∃ slot, editor.store.place? child =
        some (.within locus.owner address.property slot) := by
    intro child hchild
    obtain ⟨slot, hslot⟩ := Branch.mem_children.mp (hperm.mem_iff.mpr (List.mem_append.mpr hchild))
    exact ⟨slot, locus.stands_iff.mpr hslot⟩
  obtain ⟨σ₂, hreindex, hσ₂, hshifts⟩ := locus.shift hν₁ locus.climbs.live hnodup.2.1
    (fun _ _ => locus.stands_iff)
    (fun child hchild => hperm.mem_iff.mpr (List.mem_append_right _ hchild))
  have hplaces₁ : ∀ g, (editor.store.setBranch locus.owner address.property
      (.blockList states')).place? g = editor.store.place? g :=
    fun g => Store.place?_setBranch _ _ _ _
  -- The removed members are siblings of those that are given their slots, so what is below them
  -- is the same before and after that.
  have hunder : ∀ d ∈ removed.members, ∀ g, σ₂.Under d g ↔ editor.store.Under d g := by
    intro d hd g
    obtain ⟨slot, hplace⟩ := hplaces d (.inl hd)
    refine (hshifts.under_iff (fun child hchild => ?_) (fun g hunder hg => ?_)
      (fun hunder => ?_) g).trans (Store.under_setBranch _ _ _)
    · simpa only [hplaces₁] using hplaces child (.inr hchild)
    · obtain ⟨slot', hplace'⟩ := hplaces g (.inr hg)
      have heq := Store.eq_of_under (.within hplace locus.climbs) hplace hplace'
        ((Store.under_setBranch _ _ _).mp hunder)
      exact hnodup.2.2 d hd g hg heq.symm
    · exact locus.not_under hplace ((Store.under_setBranch _ _ _).mp hunder)
  have hloose : ∀ d ∈ removed.members, d ∉ (Branch.blockList states').children :=
    fun d hd hd' => hnodup.2.2 d hd d hd' rfl
  obtain ⟨σ₃, hdestroy, hσ₃, hsweeps⟩ := hσ₂.destroyMembers (Set.mem_singleton locus.owner)
    block removed.members hnodup.1
    (fun d hd => by
      rw [hshifts.place?_kept (hloose d hd), hplaces₁]
      exact hplaces d (.inl hd))
    (fun d hd g hbelow hg => by
      rw [Set.mem_singleton_iff.mp hg, hunder d hd] at hbelow
      obtain ⟨slot, hplace⟩ := hplaces d (.inl hd)
      exact locus.not_under hplace hbelow) 0
  have hgone : ∀ d ∈ removed.members, ∀ g, editor.store.Under d g → ¬ σ₃.Live g := by
    rintro d hd g hbelow ⟨state, hstate⟩
    rw [hsweeps.gone d hd g ((hunder d hd g).mpr hbelow)] at hstate
    cases hstate
  have hkept : ∀ g, (∀ d ∈ removed.members, ¬ editor.store.Under d g) → σ₃.get? g = σ₂.get? g :=
    fun g hg => hsweeps.kept g fun d hd hbelow => hg d hd ((hunder d hd g).mp hbelow)
  -- A child that stays is under none of those that go.
  have hapart : ∀ child ∈ (Branch.blockList states').children, ∀ d ∈ removed.members,
      ¬ editor.store.Under d child := by
    intro child hchild d hd hbelow
    obtain ⟨slot, hplace⟩ := hplaces d (.inl hd)
    obtain ⟨slot', hplace'⟩ := hplaces child (.inr hchild)
    have heq := Store.eq_of_under (.within hplace locus.climbs) hplace hplace' hbelow
    exact hnodup.2.2 d hd child hchild heq.symm
  replace hσ₃ : Standing editor.grammar editor.root σ₃ ν₁ {locus.owner} ∅ := by
    refine hσ₃.tighten fun g hg hlive => ?_
    have hg' := hperm.mem_iff.mp hg.1
    exact absurd hlive (hgone g ((List.mem_append.mp hg').resolve_right hg.2) g .refl)
  refine ⟨σ₂, σ₃, hreindex, hdestroy, locus.withdraw rfl removed.members hkind hreflects hperm
    (fun _ => id) (fun g hlive => ?_) hσ₃ hroot₁ hlabel₁ hothers₁ hgone
    (fun g hg hg' => ?_) (fun g hg => ?_) ?_ fun slot child hslot => ?_⟩
  · constructor
    · rintro ⟨path, hclimbs, hdiscards⟩
      exact (locus.mirrors.standing.exists_member_iff hmember hclimbs).mp hdiscards
    · intro hbelow
      obtain ⟨path, hclimbs⟩ := locus.mirrors.standing.rooted g hlive
      exact ⟨path, hclimbs,
        (locus.mirrors.standing.exists_member_iff hmember hclimbs).mpr hbelow⟩
  · rw [hkept g hg, hshifts.kept g hg']
  · obtain ⟨slot, hplace⟩ := hplaces g (.inr hg)
    rw [Store.body?, hkept g (hapart g hg), ← Store.body?, hshifts.body?,
      Store.body?_setBranch (locus.ne_owner hplace)]
  · rw [hstates]
    exact .removeBlock hcount (fun d hd => hgone d hd d .refl) hremove
  · have hchild := Branch.mem_children.mpr ⟨slot, hslot⟩
    obtain ⟨slot', hplace⟩ := hplaces child (.inr hchild)
    rw [Store.place?, hkept child (hapart child hchild), ← Store.place?]
    refine hshifts.place?_moved hslot ?_
    rw [Store.live_setBranch]
    exact Store.live_of_place? hplace

end TreeEditor.Locus
