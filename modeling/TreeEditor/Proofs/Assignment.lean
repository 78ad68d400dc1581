import TreeEditor.Proofs.Locus

/-!
# Edits that leave the states of a branch where they are

The state in the slot of an optional child outlives assignments. When the child is assigned the
states below it are grown (`Locus.assign`); when it is unassigned they go (`Locus.unassign`). A
change of replication touches only the header of a block (`Locus.redress`), and a change of a value
no state at all (`Editor.Mirrors.setValue`).
-/

namespace TreeEditor

namespace Standing

variable {grammar : Grammar} {root c o : Handle} {σ σ' : Store} {ν : Handle → Option Node}
  {name : String} {slot : Slot}

/-- A vacant state holds nothing. -/
theorem bare_of_vacant (hσ : Standing grammar root σ ν ∅ ∅) (hlive : σ.Live c)
    (hvacant : ν c = none) : σ.Bare c := by
  obtain ⟨state, hstate⟩ := hlive
  have hsettled := hσ.settled c state hstate (Set.notMem_empty c)
  rw [hvacant] at hsettled
  cases hsettled with
  | vacant stage branches =>
    refine ⟨⟨state, hstate, branches⟩, fun child name slot hplace => ?_⟩
    rw [hσ.linked c ⟨state, hstate⟩ (Set.notMem_empty c), Store.branch?, hstate,
      Option.bind_some, branches] at hplace
    obtain ⟨branch, hbranch, -⟩ := hplace
    cases hbranch

/-- A child of an open state can be opened and put under another node. -/
theorem relabel_child (hσ : Standing grammar root σ ν (insert c {o}) ∅)
    (hplace : σ.place? c = some (.within o name slot)) (item : Option Node) :
    Standing grammar root σ (Function.update ν c item) (insert c {o}) ∅ :=
  hσ.relabel_one (Set.mem_insert c _) (fun parent name slot hat => by
    rw [hplace] at hat
    cases hat
    exact Set.mem_insert_of_mem c (Set.mem_singleton _)) item

/-- A child that has been cleared can be closed as a vacant one. -/
theorem vacate (hσ' : Standing grammar root σ' ν (insert c {o}) ∅) (hcleared : σ.Cleared σ' c)
    {path : Path} (hclimbs : σ.Climbs c path) (hplace : σ.place? c = some (.within o name slot)) :
    Standing grammar root (σ'.setStage c .vacant) (Function.update ν c none) {o} ∅ := by
  have hrelabeled := (hσ'.relabel_child ((hcleared.place?_kept (.inr rfl)).trans hplace)
    none).setStage (Set.mem_insert c {o}) .vacant
  obtain ⟨state, hstate⟩ := hclimbs.live
  have hstate' : (σ'.setStage c .vacant).get? c =
      some { state with inners := [], stage := .vacant } := by
    rw [Store.get?_setStage, if_pos rfl, hcleared.state, hstate]
    rfl
  refine hrelabeled.close (fun h hh hlive hclosed => ?_) fun h hh found hfound hclosed => ?_
  · obtain rfl := hh.resolve_right hclosed
    intro name slot child
    rw [Store.place?_setStage, Store.branch?, hstate', Option.bind_some]
    refine ⟨fun hat => absurd hat (hcleared.leaf hclimbs child name slot), ?_⟩
    rintro ⟨branch, hbranch, -⟩
    cases hbranch
  · obtain rfl := hh.resolve_right hclosed
    rw [hstate'] at hfound
    cases hfound
    rw [Function.update_self]
    exact .vacant rfl rfl

end Standing

namespace Locus

variable {editor : Editor} {ν : Handle → Option Node} {address : BranchPath}

/-- Setting the branch that there is changes nothing. -/
theorem get?_setBranch_self (locus : Locus editor ν address) :
    (editor.store.setBranch locus.owner address.property locus.branch).get? locus.owner =
      editor.store.get? locus.owner := by
  obtain ⟨state, hstate, hget⟩ := Option.bind_eq_some_iff.mp locus.held
  rw [Store.get?_setBranch, if_pos rfl, hstate, Option.map_some,
    State.setBranch_self hget]

/-- The branch can be set to one with the same children in the same slots. -/
theorem redress (locus : Locus editor ν address) (edit : Edit) (hsite : edit.site = address)
    (hdiscards : ∀ path, ¬ edit.Discards path) (hinstalls : ∀ path, ¬ edit.Installs path)
    {P' : Property Node} {branch' : Branch} (hkind : P'.kind = locus.property.kind)
    (hreflects : Reflects ν P' branch')
    (hchildAt : ∀ slot, branch'.childAt? slot = locus.branch.childAt? slot)
    (hchildren : branch'.children = locus.branch.children)
    (hrewrites : ∀ gone came, edit.Rewrites gone came locus.branch branch') :
    locus.Becomes edit P' (editor.store.setBranch locus.owner address.property branch') := by
  obtain ⟨ν₁, hσ₁, hroot₁, hlabel₁, hothers₁⟩ :=
    locus.reopen (locus.node.set address.property P')
  refine locus.withdraw hsite [] hkind hreflects (by rw [hchildren]; rfl) hinstalls
    (by simp [hdiscards]) (hσ₁.setBranch (Set.mem_singleton locus.owner) address.property branch')
    hroot₁ hlabel₁ hothers₁ nofun (fun _ _ _ => rfl) (fun g hg => ?_) (hrewrites _ _)
    fun slot child hslot => ?_
  · obtain ⟨slot, hslot⟩ := Branch.mem_children.mp hg
    rw [hchildAt] at hslot
    exact Store.body?_setBranch (locus.ne_owner (locus.stands_iff.mpr hslot)) _ branch'
  · rw [Store.place?_setBranch, locus.stands_iff, ← hchildAt, hslot]

/-- An optional child can be assigned when its slot is vacant. -/
theorem assign (locus : Locus editor ν address) {assigned : Bool} {item : Option Node}
    {after : Node} {c : Handle} (before : Option Node)
    (hoptional : locus.property = .optional assigned item)
    (hslot : locus.branch = .optional c) (hvacant : ν c = none) (hnode : after.WellFormed)
    (hvalid : editor.grammar.Valid after) :
    ∃ σ', editor.grammar.growth after c editor.store = .ok σ' ∧ σ'.Live c ∧
      locus.Becomes (.assign address before after) (.optional true (some after))
        (σ'.setStage c .ready) := by
  obtain ⟨ν₁, hσ₁, hroot₁, hlabel₁, hothers₁⟩ :=
    locus.reopen (locus.node.set address.property (.optional true (some after)))
  have hc := locus.stands_iff.mpr (locus.childAt?_optional hslot)
  have hclimbs : editor.store.Climbs c (address.child .optional) := .within hc locus.climbs
  have hbare := locus.mirrors.standing.bare_of_vacant hclimbs.live hvacant
  have hσ₂ := (hσ₁.mono (Set.subset_insert c {locus.owner}) subset_rfl).relabel_child hc
    (some after)
  obtain ⟨σ', ν', hgrow, hσ', hgrows⟩ := Grammar.growsAs locus.mirrors.distinct.branches
    editor.root after hnode hvalid _ _ _ _ _ hσ₂ hbare (Function.update_self c _ _)
  have hstays := hgrows.live hclimbs.live
  replace hgrows := hgrows.setStage .ready
  have hne : locus.owner ≠ c := fun heq => locus.not_under hc (heq ▸ .refl)
  have hlabels : ∀ h, editor.store.Live h → h ≠ c → ν' h = ν₁ h := fun h hh hhc =>
    (hgrows.labels h hh).trans (Function.update_of_ne hhc _ _)
  have hunder : ¬ (σ'.setStage c .ready).Under c locus.owner := by
    obtain ⟨path, hup⟩ := hσ'.rooted c (hgrows.live hclimbs.live)
    exact Store.not_under_parent hup ((hgrows.place?_eq hclimbs.live).trans hc)
  have hreshaped : locus.Reshaped (.assign address before after) (.optional true (some after))
      locus.branch (fun d => ∃ name slot, (σ'.setStage c .ready).place? d =
        some (.within c name slot)) (σ'.setStage c .ready) ν' := {
    standing := hσ'
    root := (hlabels _ locus.live_root (locus.root_ne hc)).trans hroot₁
    label := (hlabels _ locus.climbs.live hne).trans hlabel₁
    owner := by rw [locus.get?_setBranch_self, hgrows.kept _ locus.climbs.live hne]
    reflects := by
      rw [hslot]
      refine .optional ?_
      rw [hgrows.labels c hclimbs.live, Function.update_self]
      rfl
    stands := fun child slot => by rw [hgrows.stands_iff hunder, locus.stands_iff]
    others := fun child other slot _ => hgrows.stands_iff hunder child other slot
    places := fun h hh _ => .inl (hgrows.place?_eq hh)
    labels := fun h path hup _ htouches => by
      refine (hlabels h hup.live ?_).trans
        (hothers₁ h (locus.not_under_of_touches rfl hup htouches))
      rintro rfl
      exact htouches (.inr (hup.unique hclimbs))
    rewrites := .assign
    bodies := fun h path hup _ htoggles _ => by
      rw [Store.body?, hgrows.kept h hup.live, Store.body?]
      rintro rfl
      exact htoggles (hup.unique hclimbs)
    gone := fun h hh => by simp [hgrows.live hh, Edit.Discards]
    fresh := by
      rintro d ⟨name, slot, hplace⟩ hlive
      exact hbare.leaf d name slot ((hgrows.place?_eq hlive).symm.trans hplace)
    below := fun h hh => by
      rcases hgrows.below h hh with hh | hunder
      · exact .inl hh
      · rcases hunder.eq_or_child with rfl | ⟨d, name, slot, hplace, hunder⟩
        · exact .inl hclimbs.live
        · exact .inr ⟨d, ⟨name, slot, hplace⟩, hunder⟩
    installs := fun hclosed hup g path hg =>
      hclosed.exists_child_iff (.within ((hgrows.place?_eq hclimbs.live).trans hc) hup) hg }
  exact ⟨σ', hgrow, hstays, hreshaped.becomes rfl (by rw [hoptional]; rfl)⟩

/-- An assigned optional child can be unassigned. -/
theorem unassign (locus : Locus editor ν address) {held : Node} {c : Handle} (item : Node)
    (restore : Option Node) (hoptional : locus.property = .optional true (some held))
    (hslot : locus.branch = .optional c) :
    ∃ σ', editor.store.clear c = .ok σ' ∧ σ'.Live c ∧
      locus.Becomes (.unassign address item restore) (.optional false restore)
        (σ'.setStage c .vacant) := by
  obtain ⟨ν₁, hσ₁, hroot₁, hlabel₁, hothers₁⟩ :=
    locus.reopen (locus.node.set address.property (.optional false restore))
  have hc := locus.stands_iff.mpr (locus.childAt?_optional hslot)
  have hclimbs : editor.store.Climbs c (address.child .optional) := .within hc locus.climbs
  have howner : ¬ editor.store.Under c locus.owner := locus.not_under hc
  have hne : locus.owner ≠ c := fun heq => howner (heq ▸ .refl)
  obtain ⟨σ₂, hclear, hσ₂, hcleared⟩ := hσ₁.clear hclimbs.live fun g hunder hg =>
    howner (Set.mem_singleton_iff.mp hg ▸ hunder)
  -- What was below the child is gone; the child itself stays, as a vacant state.
  have hσ₃ := hσ₂.vacate hcleared hclimbs hc
  have hlive : ∀ h, (σ₂.setStage c .vacant).Live h ↔
      editor.store.Live h ∧ (¬ editor.store.Under c h ∨ h = c) := fun h =>
    (Store.live_modify c h _).trans hcleared.live_iff
  have hstands : ∀ child other slot, (σ₂.setStage c .vacant).place? child =
      some (.within locus.owner other slot) ↔
        editor.store.place? child = some (.within locus.owner other slot) := by
    intro child other slot
    rw [Store.place?_setStage]
    exact hcleared.stands_iff hclimbs hc
  have hreshaped : locus.Reshaped (.unassign address item restore) (.optional false restore)
      locus.branch (fun _ => False) (σ₂.setStage c .vacant) (Function.update ν₁ c none) := {
    standing := hσ₃
    root := by rw [Function.update_of_ne (locus.root_ne hc), hroot₁]
    label := by rw [Function.update_of_ne hne, hlabel₁]
    owner := by
      rw [locus.get?_setBranch_self, Store.get?_setStage, if_neg hne, hcleared.kept _ howner]
    reflects := by
      rw [hslot]
      exact .optional (Function.update_self c none ν₁)
    stands := fun child slot => (hstands child _ slot).trans locus.stands_iff
    others := fun child other slot _ => hstands child other slot
    places := fun h _ hh => .inl ((Store.place?_setStage c h .vacant).trans
      (hcleared.place?_kept ((hlive h).mp hh).2))
    labels := fun h path hup _ htouches => by
      rw [Function.update_of_ne, hothers₁ h (locus.not_under_of_touches rfl hup htouches)]
      rintro rfl
      exact htouches (.inr (hup.unique hclimbs))
    rewrites := .unassign
    bodies := fun h path hup hh htoggles _ => by
      have hhc : h ≠ c := by
        rintro rfl
        exact htoggles (hup.unique hclimbs)
      rw [Store.body?, Store.get?_setStage, if_neg hhc,
        hcleared.kept h (((hlive h).mp hh).2.resolve_right hhc), Store.body?]
    gone := fun h hh => by
      refine Iff.trans ?_
        (not_congr (locus.mirrors.standing.below_iff_exists hclimbs hh))
      rw [hlive, and_iff_right hh, not_and_or, not_not]
    fresh := fun _ hnew => hnew.elim
    below := fun h hh => .inl ((hlive h).mp hh).1
    installs := fun _ _ _ path _ => by simp [Edit.Installs] }
  exact ⟨σ₂, hclear, hcleared.live_iff.mpr ⟨hclimbs.live, .inr rfl⟩,
    hreshaped.becomes rfl (by rw [hoptional]; rfl)⟩

end Locus

/-- The leaf of a value property of a node can be changed. -/
theorem Editor.Mirrors.setValue {editor : Editor} {ν : Handle → Option Node}
    (hmirrors : editor.Mirrors ν) {o : Handle} {path : Path} {node : Node} {name : String}
    {before : Leaf} (hclimbs : editor.store.Climbs o path) (hlabel : ν o = some node)
    (hnode : node.WellFormed) (hvalue : node.property? name = some (.value before))
    (after : Leaf) :
    ∃ ν', Standing editor.grammar editor.root editor.store ν' ∅ ∅ ∧
      ν' editor.root = some (editor.document.put path (node.set name (.value after))) ∧
      editor.store.Turns (.setValue path name before after) ν editor.store ν' := by
  obtain ⟨ν', hσ', hroot, hlabel', hothers⟩ := hmirrors.standing.reopen hmirrors.document
    hmirrors.wellFormed hclimbs hlabel (node.set name (.value after))
  refine ⟨ν', hσ'.close (fun h _ hlive _ => ?_) fun h hh state hstate _ => ?_, hroot, ?_, ?_, ?_,
    fun _ _ _ => .inl rfl, o, hclimbs, ?_, fun _ _ _ _ _ => ⟨rfl, fun _ _ => rfl⟩⟩
  · exact hmirrors.standing.linked h hlive (Set.notMem_empty h)
  · rw [Set.mem_singleton_iff] at hh
    subst hh
    have hsettled := hmirrors.standing.settled h state hstate (Set.notMem_empty h)
    rw [hlabel] at hsettled
    rw [hlabel']
    refine (hsettled.setValue hnode hvalue).congr fun entry hentry slot child hchild => ?_
    have hplace := hmirrors.standing.place?_of_entry hstate (Set.notMem_empty h) hentry hchild
    obtain ⟨up, hup⟩ := hmirrors.standing.rooted child (Store.live_of_place? hplace)
    exact hothers child (Store.not_under_parent hup hplace)
  · exact fun h hh => by simp [hh, Edit.Discards]
  · exact fun h hh => by simp [hh, Edit.Installs]
  · intro h up hup _ htouches
    refine hothers h fun hunder => htouches (.inl ?_)
    exact (hmirrors.standing.under_iff hup hclimbs).mp hunder
  · dsimp only [Edit.site]
    cases editor.store.branch? o name with
    | none => exact .none
    | some held => exact .some .setValue

end TreeEditor
