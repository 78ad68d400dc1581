import TreeEditor.Editor.Apply
import TreeEditor.Proofs.Steps

/-!
# Removing states

`Store.destroy` removes a state with everything under it and nothing else, and a store that stands
goes on standing if the parent of the state is open. The recursion takes the children of a state one
after the other; `Store.Sweeps` says of a list of children how far it has come. That the bound on
the generations is never met follows from `Store.Climbs.length_lt`: each level of the recursion is
one step further down, and no way up is as long as there are states.
-/

namespace TreeEditor

namespace Store

variable {σ σ' σ'' : Store} {c g : Handle} {done : List Handle}

/-- Some states have been removed, each with everything under it, and nothing else has changed. -/
structure Sweeps (σ σ' : Store) (done : List Handle) : Prop where
  gone : ∀ d ∈ done, ∀ g, σ.Under d g → σ'.get? g = none
  kept : ∀ g, (∀ d ∈ done, ¬ σ.Under d g) → σ'.get? g = σ.get? g
  generations : σ'.arena.generations = σ.arena.generations

namespace Sweeps

/-- Nothing is removed at first. -/
theorem nil (σ : Store) : σ.Sweeps σ [] := ⟨nofun, fun _ _ => rfl, rfl⟩

/-- What has a place after states were removed had it before. -/
theorem place?_mono (h : σ.Sweeps σ' done) {place : Place} (hplace : σ'.place? g = some place) :
    σ.place? g = some place := by
  by_cases hg : ∃ d ∈ done, σ.Under d g
  · obtain ⟨d, hd, hunder⟩ := hg
    rw [place?, h.gone d hd g hunder] at hplace
    cases hplace
  · rwa [place?, h.kept g fun d hd hunder => hg ⟨d, hd, hunder⟩] at hplace

/-- What was not removed stands where it stood. -/
theorem place?_kept (h : σ.Sweeps σ' done) (hg : ∀ d ∈ done, ¬ σ.Under d g) :
    σ'.place? g = σ.place? g := by
  unfold place?
  rw [h.kept g hg]

/-- Live afterwards is what was live before and is not below what was removed. -/
theorem live_iff (h : σ.Sweeps σ' done) :
    σ'.Live g ↔ σ.Live g ∧ ∀ d ∈ done, ¬ σ.Under d g := by
  by_cases hg : ∃ d ∈ done, σ.Under d g
  · obtain ⟨d, hd, hunder⟩ := hg
    have hdead : ¬ σ'.Live g := not_live.mpr (h.gone d hd g hunder)
    exact iff_of_false hdead fun hboth => hboth.2 d hd hunder
  · simp only [not_exists, not_and] at hg
    rw [Live, h.kept g hg, ← Live]
    exact (and_iff_left hg).symm

/-- Of what stands in slots of a state only the child that was removed is gone. -/
theorem stands_iff {o : Handle} {name other : String} {slot slot' : Slot} {path : Path}
    (h : σ.Sweeps σ' [c]) (hclimbs : σ.Climbs c path)
    (hc : σ.place? c = some (.within o name slot)) :
    σ'.place? g = some (.within o other slot') ↔
      g ≠ c ∧ σ.place? g = some (.within o other slot') := by
  constructor
  · intro hplace
    refine ⟨?_, h.place?_mono hplace⟩
    rintro rfl
    exact (h.live_iff.mp (live_of_place? hplace)).2 g (List.mem_singleton_self g) .refl
  · rintro ⟨hne, hplace⟩
    rw [h.place?_kept, hplace]
    intro d hd hunder
    rw [List.mem_singleton.mp hd] at hunder
    exact hne (eq_of_under hclimbs hc hplace hunder)

/-- What is removed first and then is removed together, if nothing is below states of both. -/
theorem append {rest : List Handle} (h : σ.Sweeps σ' done) (h' : σ'.Sweeps σ'' rest)
    (hapart : ∀ d ∈ done, ∀ c ∈ rest, ∀ g, σ.Under d g → ¬ σ.Under c g) :
    σ.Sweeps σ'' (done ++ rest) := by
  -- Nothing between a state to be removed and what is below it is gone yet.
  have hbelow : ∀ c ∈ rest, ∀ g, σ.Under c g → σ'.Under c g := by
    intro c hc g hunder
    induction hunder with
    | refl => exact .refl
    | @within g _ _ _ place up ih =>
      have hkept := h.place?_kept fun d hd hunder =>
        hapart d hd c hc g hunder (.within place up)
      exact .within (hkept.trans place) ih
  have hgone : ∀ g, σ'.get? g = none → σ''.get? g = none := by
    intro g hnone
    by_cases hunder : ∃ c ∈ rest, σ'.Under c g
    · obtain ⟨c, hc, hunder⟩ := hunder
      exact h'.gone c hc g hunder
    · rw [h'.kept g fun c hc hg => hunder ⟨c, hc, hg⟩, hnone]
  refine ⟨fun d hd g hunder => ?_, fun g hg => ?_, h'.generations.trans h.generations⟩
  · rcases List.mem_append.mp hd with hd | hd
    · exact hgone g (h.gone d hd g hunder)
    · exact h'.gone d hd g (hbelow d hd g hunder)
  · rw [h'.kept g fun c hc hunder => hg c (List.mem_append_right _ hc)
      (hunder.mono fun _ _ => h.place?_mono), h.kept g fun d hd => hg d (List.mem_append_left _ hd)]

/-- Announcing is no removal. -/
theorem of_announce {event : Event} (h : (σ.announce event).Sweeps σ' done) : σ.Sweeps σ' done :=
  ⟨fun d hd g hunder => h.gone d hd g ((under_announce event).mpr hunder),
    fun g hg => h.kept g fun d hd hunder => hg d hd ((under_announce event).mp hunder),
    h.generations⟩

end Sweeps

/-- Everything under a state has been removed; the state itself holds nothing any more. -/
structure Cleared (σ σ' : Store) (h : Handle) : Prop where
  gone : ∀ g, σ.Under h g → g ≠ h → σ'.get? g = none
  kept : ∀ g, ¬ σ.Under h g → σ'.get? g = σ.get? g
  state : σ'.get? h = (σ.get? h).map fun state => { state with inners := [] }
  generations : σ'.arena.generations = σ.arena.generations

namespace Cleared

/-- The state stands where it stood, and so does what is not below it. -/
theorem place?_kept (h : σ.Cleared σ' c) (hg : ¬ σ.Under c g ∨ g = c) :
    σ'.place? g = σ.place? g := by
  unfold place?
  rcases hg with hg | rfl
  · rw [h.kept g hg]
  · rw [h.state, Option.map_map]
    rfl

/-- Live afterwards is only what was live before, the state itself and what is not below it. -/
theorem live_iff (h : σ.Cleared σ' c) :
    σ'.Live g ↔ σ.Live g ∧ (¬ σ.Under c g ∨ g = c) := by
  by_cases hout : ¬ σ.Under c g ∨ g = c
  · rw [live_iff_place?, h.place?_kept hout, ← live_iff_place?, and_iff_left hout]
  · refine iff_of_false ?_ fun hboth => hout hboth.2
    rw [not_or, not_not] at hout
    exact not_live.mpr (h.gone g hout.1 hout.2)

/-- What stands in slots of the parent of the state stands where it stood. -/
theorem stands_iff {o : Handle} {name other : String} {slot slot' : Slot} {path : Path}
    (h : σ.Cleared σ' c) (hclimbs : σ.Climbs c path)
    (hc : σ.place? c = some (.within o name slot)) :
    σ'.place? g = some (.within o other slot') ↔ σ.place? g = some (.within o other slot') := by
  constructor
  · intro hplace
    exact (h.place?_kept (h.live_iff.mp (live_of_place? hplace)).2).symm.trans hplace
  · intro hplace
    refine (h.place?_kept ?_).trans hplace
    rw [or_iff_not_imp_left, not_not]
    exact eq_of_under hclimbs hc hplace

/-- Nothing stands in a slot of the state any more. -/
theorem leaf (h : σ.Cleared σ' c) {path : Path} (hclimbs : σ.Climbs c path) (child : Handle)
    (name : String) (slot : Slot) : σ'.place? child ≠ some (.within c name slot) := by
  intro hplace
  have hkept := (h.live_iff.mp (live_of_place? hplace)).2
  rw [h.place?_kept hkept] at hplace
  rcases hkept with hunder | rfl
  · exact hunder (.within hplace .refl)
  · exact not_under_parent hclimbs hplace .refl

end Cleared

/-! ## The order of the removals -/

section Order

variable {remove : Handle → Store → Except Failure Store} {all : List Handle}
  {I : List Handle → Store → Prop} {owner : Handle} {name : String}

/-- What holds of a store while a list of states is removed one by one, whatever is announced in
between. -/
structure Removing (remove : Handle → Store → Except Failure Store) (all : List Handle)
    (I : List Handle → Store → Prop) : Prop where
  step : ∀ done d rest σ, all = done ++ d :: rest → I done σ →
    ∃ σ', remove d σ = .ok σ' ∧ I (done ++ [d]) σ'
  announce : ∀ done σ event, I done σ → I done (σ.announce event)

/-- A part of the states is removed. -/
theorem Removing.foldlM (h : Removing remove all I) (items done : List Handle)
    {rest : List Handle} (hall : all = done ++ items ++ rest) (hσ : I done σ) :
    ∃ σ', items.foldlM (fun σ child => remove child σ) σ = .ok σ' ∧ I (done ++ items) σ' := by
  induction items generalizing done σ with
  | nil => exact ⟨σ, rfl, by rwa [List.append_nil]⟩
  | cons d items ih =>
    obtain ⟨σ₁, hremove, hσ₁⟩ := h.step done d (items ++ rest) σ (by simp [hall]) hσ
    obtain ⟨σ₂, hfold, hσ₂⟩ := ih (done ++ [d]) (by simp [hall]) hσ₁
    refine ⟨σ₂, ?_, by simpa using hσ₂⟩
    rw [List.foldlM_cons, hremove, ok_bind, hfold]

/-- The members of blocks are removed. -/
theorem Removing.releaseBlocks (h : Removing remove all I) (site : BranchRef)
    (blocks : List (Block Node Handle)) (position : Nat) (done rest : List Handle)
    (hall : all = done ++ blocks.flatMap Block.members ++ rest) (hσ : I done σ) :
    ∃ σ', Store.releaseBlocks remove site position blocks σ = .ok σ' ∧
      I (done ++ blocks.flatMap Block.members) σ' := by
  induction blocks generalizing position done σ with
  | nil => exact ⟨σ, rfl, by rwa [List.flatMap_nil, List.append_nil]⟩
  | cons block blocks ih =>
    rw [List.flatMap_cons] at hall ⊢
    obtain ⟨σ₁, hfold, hσ₁⟩ := h.foldlM block.members done
      (show all = _ ++ (blocks.flatMap Block.members ++ rest) by simp [hall]) hσ
    obtain ⟨σ₂, hrest, hσ₂⟩ := ih (position + 1) (done ++ block.members)
      (by simp [hall]) (h.announce _ _ (.blockDestroyed site position) hσ₁)
    refine ⟨σ₂, ?_, by simpa using hσ₂⟩
    rw [Store.releaseBlocks, hfold, ok_bind, hrest]

/-- The states of a branch are removed. -/
theorem Removing.releaseWith (h : Removing remove all I) (owner : Handle) (name : String)
    (branch : Branch) (done rest : List Handle) (hall : all = done ++ branch.children ++ rest)
    (hσ : I done σ) :
    ∃ σ', Store.releaseWith remove owner name branch σ = .ok σ' ∧
      I (done ++ branch.children) σ' := by
  cases branch with
  | blockList blocks =>
    have hmembers : (Branch.blockList blocks).children = blocks.flatMap Block.members :=
      map_snd_blockSlots blocks
    rw [hmembers] at hall ⊢
    exact h.releaseBlocks _ blocks _ done rest hall hσ
  | placeholder child => exact h.foldlM _ done hall hσ
  | optional child => exact h.foldlM _ done hall hσ
  | list children => exact h.foldlM _ done hall hσ

/-- The states of all branches of a state are removed. -/
theorem Removing.inners {state : State}
    (h : Removing remove (state.branches.flatMap fun entry => entry.2.children) I) (hσ : I [] σ) :
    ∃ σ', state.inners.foldlM (fun σ (property, inner) =>
        Store.releaseWith remove inner.owner property inner.branch σ) σ = .ok σ' ∧
      I (state.branches.flatMap fun entry => entry.2.children) σ' := by
  rw [State.branches, List.flatMap_map] at h ⊢
  obtain ⟨σ', hσ', hI⟩ := foldlM_ok state.inners (b := σ)
    (f := fun σ (entry : String × Inner) =>
      Store.releaseWith remove entry.2.owner entry.1 entry.2.branch σ)
    (I := fun done σ => I (done.flatMap fun entry => entry.2.branch.children) σ) hσ
    fun done entry rest σ hinners hI => by
      obtain ⟨σ', hσ', hI'⟩ := h.releaseWith entry.2.owner entry.1 entry.2.branch _
        (rest.flatMap fun entry => entry.2.branch.children) (by simp [hinners]) hI
      exact ⟨σ', hσ', by simpa using hI'⟩
  exact ⟨σ', hσ', hI⟩

end Order

end Store

namespace Standing

variable {grammar : Grammar} {root h c parent : Handle} {σ : Store} {ν : Handle → Option Node}
  {H U : Set Handle} {name : String} {slot : Slot} {path : Path} {generations height : Nat}

/-- A recursion of so many generations removes the states that are no further than that from the
bottom of a store of a given height. -/
def Destroys (grammar : Grammar) (root : Handle) (ν : Handle → Option Node) (U : Set Handle)
    (height generations : Nat) : Prop :=
  ∀ σ H c parent name slot path, Standing grammar root σ ν H U →
    σ.place? c = some (.within parent name slot) → parent ∈ H → (∀ g, σ.Under c g → g ∉ H) →
    (∀ g path, σ.Climbs g path → path.length < height) → σ.Climbs c path →
    height ≤ generations + path.length →
    ∃ σ', Store.destroyWithin generations c σ = .ok σ' ∧ Standing grammar root σ' ν H U ∧
      σ.Sweeps σ' [c]

/-- Children of an open state can be removed one after the other. -/
theorem removing (hopen : h ∈ H) {all : List Handle} (hnodup : all.Nodup)
    (hchildren : ∀ d ∈ all, ∃ name slot, σ.place? d = some (.within h name slot))
    (hclosed : ∀ d ∈ all, ∀ g, σ.Under d g → g ∉ H)
    (hheight : ∀ g path, σ.Climbs g path → path.length < height) (hclimbs : σ.Climbs h path)
    (hgenerations : height ≤ generations + (path.length + 1))
    (hdestroys : Destroys grammar root ν U height generations) :
    Store.Removing (Store.destroyWithin generations) all fun done σ' =>
      Standing grammar root σ' ν H U ∧ σ.Sweeps σ' done where
  step := by
    rintro done d rest σ' rfl ⟨hσ', hsweeps⟩
    have hd : d ∈ done ++ d :: rest := by simp
    obtain ⟨name, slot, hplace⟩ := hchildren d hd
    -- What has been removed was under other children: the trees under two children share nothing.
    have hapart : ∀ d' ∈ done, ∀ g, σ.Under d' g → ¬ σ.Under d g := by
      intro d' hd' g hunder hunder'
      obtain ⟨name', slot', hplace'⟩ := hchildren d' (by simp [hd'])
      have heq := Store.eq_of_under_both hplace' (.within hplace' hclimbs) hplace
        (.within hplace hclimbs) hunder hunder'
      exact (List.nodup_append.mp hnodup).2.2 d' hd' d List.mem_cons_self heq
    have hplace' : σ'.place? d = some (.within h name slot) :=
      (hsweeps.place?_kept fun d' hd' hunder => hapart d' hd' d hunder .refl).trans hplace
    obtain ⟨path', hclimbs'⟩ := hσ'.rooted d (Store.live_of_place? hplace')
    obtain rfl := (hclimbs'.mono fun _ _ => hsweeps.place?_mono).unique (.within hplace hclimbs)
    obtain ⟨σ'', hdestroy, hσ'', hsweeps'⟩ := hdestroys σ' H d h name slot _ hσ' hplace' hopen
      (fun g hunder => hclosed d hd g (hunder.mono fun _ _ => hsweeps.place?_mono))
      (fun g path hup => hheight g path (hup.mono fun _ _ => hsweeps.place?_mono)) hclimbs'
      (by simpa using hgenerations)
    refine ⟨σ'', hdestroy, hσ'', hsweeps.append hsweeps' fun d' hd' c hc g hunder => ?_⟩
    rw [List.mem_singleton.mp hc]
    exact hapart d' hd' g hunder
  announce := fun _ _ event h => ⟨h.1.announce event, h.2.gone, h.2.kept, h.2.generations⟩

/-- Everything under a state can be removed once its branches are taken away. -/
theorem sweep (hσ : Standing grammar root σ ν H U) {state : State} (hstate : σ.get? h = some state)
    (hclosed : ∀ g, σ.Under h g → g ∉ H)
    (hheight : ∀ g path, σ.Climbs g path → path.length < height) (hclimbs : σ.Climbs h path)
    (hgenerations : height ≤ generations + (path.length + 1))
    (hdestroys : Destroys grammar root ν U height generations) :
    ∃ σ', state.inners.foldlM (fun σ (property, inner) =>
        Store.releaseWith (Store.destroyWithin generations) inner.owner property inner.branch σ)
        (σ.modify h fun state => { state with inners := [] }) = .ok σ' ∧
      Standing grammar root σ' ν (insert h H) U ∧ σ.Cleared σ' h := by
  have hopen := hclosed h .refl
  have hplaces : ∀ g, (σ.modify h fun state => { state with inners := [] }).place? g =
      σ.place? g := fun g => Store.place?_modify (fun _ => by rfl) h g
  -- Taking the branches away moves no state, so what is under what stays as it was.
  have hback : ∀ g place, (σ.modify h fun state => { state with inners := [] }).place? g =
      some place → σ.place? g = some place := fun g place hplace => (hplaces g).symm.trans hplace
  have hchildren : ∀ d ∈ state.branches.flatMap fun entry => entry.2.children,
      ∃ name slot, σ.place? d = some (.within h name slot) :=
    fun d hd => hσ.place?_of_child hstate hopen hd
  have hbelow : ∀ d ∈ state.branches.flatMap fun entry => entry.2.children, ∀ g,
      σ.Under d g → σ.Under h g ∧ g ≠ h := fun d hd g hunder =>
    hσ.under_of_child hstate hopen hclimbs hd hunder
  have hσ₁ : Standing grammar root (σ.modify h fun state => { state with inners := [] }) ν
      (insert h H) U :=
    (hσ.mono (Set.subset_insert h H) subset_rfl).modify (Set.mem_insert h H)
      (fun _ => rfl) fun _ _ => nofun
  have hremoving := removing (σ := σ.modify h fun state => { state with inners := [] })
    (U := U) (Set.mem_insert h H) (hσ.nodup_children hstate hopen)
    (fun d hd => by simpa only [hplaces] using hchildren d hd)
    (fun d hd g hunder => by
      obtain ⟨hunder, hne⟩ := hbelow d hd g (hunder.mono hback)
      simp [hne, hclosed g hunder])
    (fun g path hup => hheight g path (hup.mono hback))
    (hclimbs.mono fun g place hplace => (hplaces g).trans hplace) hgenerations hdestroys
  obtain ⟨σ', hσ', hstands, hsweeps⟩ := hremoving.inners ⟨hσ₁, .nil _⟩
  have hkept : ∀ g, (∀ d ∈ state.branches.flatMap fun entry => entry.2.children,
      ¬ σ.Under d g) → σ'.get? g = (σ.modify h fun state => { state with inners := [] }).get? g :=
    fun g hg => hsweeps.kept g fun d hd hunder => hg d hd (hunder.mono hback)
  refine ⟨σ', hσ', hstands, ?_, ?_, ?_, ?_⟩
  · intro g hunder hne
    obtain ⟨d, name, slot, hplace, hunder⟩ := hunder.eq_or_child.resolve_left hne
    obtain ⟨branch, hbranch, hchild⟩ :=
      (hσ.linked h ⟨state, hstate⟩ hopen name slot d).mp hplace
    rw [Store.branch?, hstate] at hbranch
    refine hsweeps.gone d (List.mem_flatMap.mpr ⟨_, Table.mem_of_get? hbranch,
      Branch.mem_children.mpr ⟨slot, hchild⟩⟩) g (hunder.mono fun g place hplace => ?_)
    exact (hplaces g).trans hplace
  · intro g hg
    rw [hkept g fun d hd hunder => hg (hbelow d hd g hunder).1, Store.get?_modify, if_neg]
    exact fun heq => hg (heq ▸ .refl)
  · rw [hkept h fun d hd hunder => (hbelow d hd h hunder).2 rfl, Store.get?_modify, if_pos rfl]
  · exact hsweeps.generations.trans (Arena.generations_modify h _)

/-- A recursion with generations enough removes any state of an open parent. -/
theorem destroys (grammar : Grammar) (root : Handle) (ν : Handle → Option Node) (U : Set Handle)
    (height generations : Nat) : Destroys grammar root ν U height generations := by
  -- By induction on the generations: the height that is left bounds the depth of the state.
  induction generations with
  | zero =>
    intro σ H c parent name slot path _ _ _ _ hheight hclimbs hgenerations
    have hlt := hheight c path hclimbs
    omega
  | succ generations ih =>
    intro σ H c parent name slot path hσ hplace hparent hclosed hheight hclimbs hgenerations
    obtain ⟨state, hstate, hstands⟩ := Store.place?_eq_some.mp hplace
    obtain ⟨σ₁, hσ₁, hstanding, hcleared⟩ := hσ.sweep hstate hclosed hheight hclimbs
      (by omega) ih
    have hget : σ₁.get? c = some { state with inners := [] } := by
      rw [hcleared.state, hstate, Option.map_some]
    have hplace₁ : σ₁.place? c = some (.within parent name slot) :=
      Store.place?_eq_some.mpr ⟨_, hget, hstands⟩
    obtain ⟨arena, hremove⟩ : ∃ arena,
        σ₁.arena.remove c = some ({ state with inners := [] }, arena) :=
      ⟨_, Arena.remove_eq_some.mpr ⟨hget, rfl⟩⟩
    have hout := hstanding.remove hremove hplace₁ (Set.mem_insert_of_mem c hparent)
      (hcleared.leaf hclimbs) (fun g (hg : g ∈ insert c H) => hg)
    refine ⟨_, Store.destroyWithin_succ_eq_ok.mpr ⟨state, σ₁, _, arena, hstate, hσ₁, hremove, rfl⟩,
      hout.announce (.stateDestroyed state.place c), ?_, ?_, ?_⟩
    · intro d hd g hunder
      rw [List.mem_singleton.mp hd] at hunder
      rw [Store.get?_announce, Store.get?_remove hremove]
      split
      · rfl
      · rename_i hne
        exact hcleared.gone g hunder hne
    · intro g hg
      have hunder : ¬ σ.Under c g := hg c (List.mem_singleton.mpr rfl)
      rw [Store.get?_announce, Store.get?_remove hremove, if_neg, hcleared.kept g hunder]
      exact fun heq => hunder (heq ▸ .refl)
    · rw [Store.announce, Store.arena_dismiss, ← hcleared.generations]
      exact Arena.generations_remove hremove

/-- A state whose parent is open can be removed with everything under it. -/
theorem destroy (hσ : Standing grammar root σ ν H U)
    (hplace : σ.place? c = some (.within parent name slot)) (hparent : parent ∈ H)
    (hclosed : ∀ g, σ.Under c g → g ∉ H) :
    ∃ σ', σ.destroy c = .ok σ' ∧ Standing grammar root σ' ν H U ∧ σ.Sweeps σ' [c] := by
  obtain ⟨path, hclimbs⟩ := hσ.rooted c (Store.live_of_place? hplace)
  exact destroys grammar root ν U σ.arena.occupied σ.generations σ H c parent name slot path hσ
    hplace hparent hclosed (fun g path hup => hup.length_lt) hclimbs
    (σ.occupied_lt_generations.le.trans (Nat.le_add_right _ _))

/-- Children of an open state can be removed that nothing open is below of. -/
theorem destroyMembers (hσ : Standing grammar root σ ν H U) (hparent : parent ∈ H) (block : Nat)
    (members : List Handle) (hnodup : members.Nodup)
    (hplaces : ∀ d ∈ members, ∃ slot, σ.place? d = some (.within parent name slot))
    (hclosed : ∀ d ∈ members, ∀ g, σ.Under d g → g ∉ H) (position : Nat) :
    ∃ σ', Editor.destroyMembers parent name block (members.zipIdx position) σ = .ok σ' ∧
      Standing grammar root σ' ν H U ∧ σ.Sweeps σ' members := by
  -- By induction on the members: the later ones stand where they stood when one has gone.
  induction members generalizing σ position with
  | nil => exact ⟨σ, rfl, hσ, .nil σ⟩
  | cons d rest ih =>
    obtain ⟨slot, hplace⟩ := hplaces d List.mem_cons_self
    obtain ⟨σ₁, hdestroy, hσ₁, hsweeps₁⟩ :=
      hσ.destroy hplace hparent (hclosed d List.mem_cons_self)
    have hapart : ∀ c ∈ rest, ∀ g, σ.Under d g → ¬ σ.Under c g := by
      intro c hc g hunder hunder'
      obtain ⟨slot', hplace'⟩ := hplaces c (List.mem_cons_of_mem _ hc)
      obtain ⟨_, hclimbs⟩ := hσ.rooted d (Store.live_of_place? hplace)
      obtain ⟨_, hclimbs'⟩ := hσ.rooted c (Store.live_of_place? hplace')
      have heq := Store.eq_of_under_both hplace hclimbs hplace' hclimbs' hunder hunder'
      exact (List.nodup_cons.mp hnodup).1 (heq ▸ hc)
    obtain ⟨σ', hrest, hσ', hsweeps⟩ := ih
      (hσ₁.announce (.removed (.within parent name (.member block position)) d))
      (List.nodup_cons.mp hnodup).2
      (fun c hc => by
        obtain ⟨slot', hplace'⟩ := hplaces c (List.mem_cons_of_mem _ hc)
        refine ⟨slot', (hsweeps₁.place?_kept fun d' hd' hunder => ?_).trans hplace'⟩
        rw [List.mem_singleton.mp hd'] at hunder
        exact hapart c hc c hunder .refl)
      (fun c hc g hunder => hclosed c (List.mem_cons_of_mem _ hc) g
        (hunder.mono fun _ _ => hsweeps₁.place?_mono)) (position + 1)
    refine ⟨σ', ?_, hσ', hsweeps₁.append hsweeps.of_announce ?_⟩
    · rw [List.zipIdx_cons, Editor.destroyMembers, hdestroy, ok_bind, hrest]
    · intro d' hd' c hc g hunder
      rw [List.mem_singleton.mp hd'] at hunder
      exact hapart c hc g hunder

/-- Everything under a state can be removed. The state stays and is open. -/
theorem clear (hσ : Standing grammar root σ ν H U) (hlive : σ.Live h)
    (hclosed : ∀ g, σ.Under h g → g ∉ H) :
    ∃ σ', σ.clear h = .ok σ' ∧ Standing grammar root σ' ν (insert h H) U ∧
      σ.Cleared σ' h := by
  obtain ⟨state, hstate⟩ := hlive
  obtain ⟨path, hclimbs⟩ := hσ.rooted h ⟨state, hstate⟩
  obtain ⟨σ', hσ', hstands, hcleared⟩ := hσ.sweep hstate hclosed
    (fun g path hup => hup.length_lt) hclimbs
    (σ.occupied_lt_generations.le.trans (Nat.le_add_right _ _))
    (destroys grammar root ν U _ σ.generations)
  exact ⟨σ', Store.clear_eq_ok.mpr ⟨state, hstate, hσ'⟩, hstands, hcleared⟩

end Standing

end TreeEditor
