import TreeEditor.Proofs.Replay
import TreeEditor.Proofs.StatePaths

/-!
# Replayed removals are what removing announces

Removing a state announces the removal of everything under it; replaying the removal of the same
state reads the same events off the store and removes nothing. The two recursions run side by side:
a state is removed from a store that has changed since, but only elsewhere, so what is under the
state is still as the replay finds it (`Store.Departs`). Children of a state have nothing below two
of them, so removing the first ones leaves what is under the rest.
-/

namespace TreeEditor

namespace Store

variable {σ τ τ' : Store} {g h o : Handle} {name : String} {events : List Event}
  {remove : Handle → Store → Except Failure Store}
  {replay : Handle → Except Failure (List Event)}

/-- A store still has everything that another one has under some states. -/
def Holds (σ τ : Store) (roots : List Handle) : Prop :=
  ∀ d ∈ roots, ∀ g, σ.Under d g → τ.get? g = σ.get? g

/-- Nothing is changed but what is under some states, and some events are announced. -/
structure Sheds (σ τ τ' : Store) (roots : List Handle) (events : List Event) : Prop where
  kept : ∀ g, (∀ d ∈ roots, ¬ σ.Under d g) → τ'.get? g = τ.get? g
  journal : τ'.journal.toList = τ.journal.toList ++ events

/-- Nothing is below two states. -/
def Apart (σ : Store) (d c : Handle) : Prop := ∀ g, σ.Under d g → ¬ σ.Under c g

/-- A state is removed from a store that has everything under it, and the events of its replayed
removal are announced. -/
def Departs (σ : Store) (remove : Handle → Store → Except Failure Store)
    (replay : Handle → Except Failure (List Event)) (d : Handle) : Prop :=
  ∀ τ, σ.Holds τ [d] →
    ∃ τ' events, remove d τ = .ok τ' ∧ replay d = .ok events ∧ σ.Sheds τ τ' [d] events

namespace Sheds

variable {τ₁ : Store} {roots roots' : List Handle} {events' : List Event}

/-- Nothing need be changed. -/
theorem refl (σ τ : Store) : σ.Sheds τ τ [] [] := ⟨fun _ _ => rfl, (List.append_nil _).symm⟩

/-- What is changed in two steps is changed. -/
theorem append (h : σ.Sheds τ τ₁ roots events) (h' : σ.Sheds τ₁ τ' roots' events') :
    σ.Sheds τ τ' (roots ++ roots') (events ++ events') where
  kept := fun g hg => by
    rw [h'.kept g fun d hd => hg d (List.mem_append_right _ hd),
      h.kept g fun d hd => hg d (List.mem_append_left _ hd)]
  journal := by rw [h'.journal, h.journal, List.append_assoc]

/-- A further event is announced. -/
theorem announce (h : σ.Sheds τ τ' roots events) (event : Event) :
    σ.Sheds τ (τ'.announce event) roots (events ++ [event]) :=
  ⟨h.kept, by simp [Store.announce, h.journal]⟩

/-- What is under states that are apart from the removed ones is still there. -/
theorem holds (h : σ.Sheds τ τ' roots events) (hholds : σ.Holds τ roots')
    (hapart : ∀ d ∈ roots, ∀ c ∈ roots', σ.Apart d c) : σ.Holds τ' roots' := by
  intro c hc g hunder
  rw [h.kept g fun d hd hunder' => hapart d hd c hc g hunder' hunder]
  exact hholds c hc g hunder

end Sheds

/-- Fewer states may be held. -/
theorem Holds.mono {roots roots' : List Handle} (h : σ.Holds τ roots) (hsub : roots' ⊆ roots) :
    σ.Holds τ roots' := fun d hd => h d (hsub hd)

/-- The states of a list are removed. -/
theorem departs_handles {all : List Handle} (hdeparts : ∀ d ∈ all, σ.Departs remove replay d)
    (hapart : all.Pairwise σ.Apart) (hholds : σ.Holds τ all) :
    ∃ τ' events, all.foldlM (fun τ d => remove d τ) τ = .ok τ' ∧
      eventsOfAll replay all = .ok events ∧ σ.Sheds τ τ' all events := by
  induction all generalizing τ with
  | nil => exact ⟨τ, [], rfl, rfl, .refl σ τ⟩
  | cons d rest ih =>
    obtain ⟨hfirst, hapart⟩ := List.pairwise_cons.mp hapart
    obtain ⟨τ₁, events, hremove, hreplay, hsheds⟩ :=
      hdeparts d List.mem_cons_self τ (hholds.mono (by simp))
    have hholds₁ : σ.Holds τ₁ rest := hsheds.holds (hholds.mono (List.subset_cons_self d rest))
      fun d' hd' c hc => by
        obtain rfl := List.mem_singleton.mp hd'
        exact hfirst c hc
    obtain ⟨τ₂, events', hfold, hevents, hsheds'⟩ :=
      ih (fun c hc => hdeparts c (List.mem_cons_of_mem d hc)) hapart hholds₁
    refine ⟨τ₂, events ++ events', ?_, eventsOfAll_cons hreplay hevents, hsheds.append hsheds'⟩
    rw [List.foldlM_cons, hremove, ok_bind, hfold]

/-- The members of blocks are removed, and the end of each block is announced. -/
theorem departs_blocks (site : BranchRef) {blocks : List (Block Node Handle)}
    (hdeparts : ∀ d ∈ blocks.flatMap Block.members, σ.Departs remove replay d)
    (hapart : (blocks.flatMap Block.members).Pairwise σ.Apart) (position : Nat)
    (hholds : σ.Holds τ (blocks.flatMap Block.members)) :
    ∃ τ' events, releaseBlocks remove site position blocks τ = .ok τ' ∧
      eventsOfAll (fun (block, position) => do
        return (← eventsOfAll replay block.members) ++ [.blockDestroyed site position])
        (blocks.zipIdx position) = .ok events ∧
      σ.Sheds τ τ' (blocks.flatMap Block.members) events := by
  -- By induction on the blocks: the later ones are still held when the members of the first are
  -- gone.
  induction blocks generalizing τ position with
  | nil => exact ⟨τ, [], rfl, rfl, .refl σ τ⟩
  | cons block rest ih =>
    rw [List.flatMap_cons] at hdeparts hapart hholds ⊢
    obtain ⟨hmembers, hrest, hboth⟩ := List.pairwise_append.mp hapart
    obtain ⟨τ₁, events, hfold, hevents, hsheds⟩ := departs_handles
      (fun d hd => hdeparts d (List.mem_append_left _ hd)) hmembers
      (hholds.mono (List.subset_append_left _ _))
    have hblock := hsheds.announce (.blockDestroyed site position)
    obtain ⟨τ₂, events', hrelease, hevents', hsheds'⟩ := ih
      (fun d hd => hdeparts d (List.mem_append_right _ hd)) hrest (position + 1)
      (hblock.holds (hholds.mono (List.subset_append_right _ _)) hboth)
    refine ⟨τ₂, events ++ [.blockDestroyed site position] ++ events', ?_, ?_,
      hblock.append hsheds'⟩
    · rw [releaseBlocks, hfold, ok_bind, hrelease]
    · rw [List.zipIdx_cons]
      refine eventsOfAll_cons ?_ hevents'
      dsimp only
      rw [hevents]
      rfl

/-- The states of a branch are removed. -/
theorem departs_branch (o : Handle) (name : String) {branch : Branch}
    (hdeparts : ∀ d ∈ branch.children, σ.Departs remove replay d)
    (hapart : branch.children.Pairwise σ.Apart) (hholds : σ.Holds τ branch.children) :
    ∃ τ' events, releaseWith remove o name branch τ = .ok τ' ∧
      branchRemoval replay ⟨o, name⟩ branch = .ok events ∧
      σ.Sheds τ τ' branch.children events := by
  cases branch with
  | blockList blocks =>
    have hmembers : (Branch.blockList blocks).children = blocks.flatMap Block.members :=
      map_snd_blockSlots blocks
    rw [hmembers] at hdeparts hapart hholds ⊢
    exact departs_blocks ⟨o, name⟩ hdeparts hapart 0 hholds
  | placeholder child => exact departs_handles hdeparts hapart hholds
  | optional child => exact departs_handles hdeparts hapart hholds
  | list children => exact departs_handles hdeparts hapart hholds

/-- The states of all branches are removed. -/
theorem departs_branches (remove : Handle → Store → Except Failure Store)
    (replay : Handle → Except Failure (List Event)) (o : Handle) {branches : List (String × Branch)}
    (hdeparts : ∀ d ∈ branches.flatMap fun entry => entry.2.children, σ.Departs remove replay d)
    (hapart : (branches.flatMap fun entry => entry.2.children).Pairwise σ.Apart)
    (hholds : σ.Holds τ (branches.flatMap fun entry => entry.2.children)) :
    ∃ τ' events, branches.foldlM (fun τ (property, branch) =>
        releaseWith remove o property branch τ) τ = .ok τ' ∧
      eventsOfAll (fun (property, branch) => branchRemoval replay ⟨o, property⟩ branch) branches =
        .ok events ∧
      σ.Sheds τ τ' (branches.flatMap fun entry => entry.2.children) events := by
  induction branches generalizing τ with
  | nil => exact ⟨τ, [], rfl, rfl, .refl σ τ⟩
  | cons entry rest ih =>
    rw [List.flatMap_cons] at hdeparts hapart hholds ⊢
    obtain ⟨hfirst, hrest, hboth⟩ := List.pairwise_append.mp hapart
    obtain ⟨τ₁, events, hrelease, hevents, hsheds⟩ := departs_branch o entry.1
      (fun d hd => hdeparts d (List.mem_append_left _ hd)) hfirst
      (hholds.mono (List.subset_append_left _ _))
    obtain ⟨τ₂, events', hfold, hevents', hsheds'⟩ := ih
      (fun d hd => hdeparts d (List.mem_append_right _ hd)) hrest
      (hsheds.holds (hholds.mono (List.subset_append_right _ _)) hboth)
    refine ⟨τ₂, events ++ events', ?_, eventsOfAll_cons hevents hevents', hsheds.append hsheds'⟩
    rw [List.foldlM_cons]
    dsimp only
    rw [hrelease, ok_bind]
    exact hfold

/-- Once everything under a state is removed, the state goes and this is announced. -/
theorem exists_destroyed {τ₁ : Store} {generations : Nat} {state last : State}
    (hstate : τ.get? h = some state) (howned : state.OwnedBy h)
    (hfold : state.branches.foldlM (fun τ (property, branch) =>
      releaseWith (destroyWithin generations) h property branch τ)
      (τ.modify h fun state => { state with inners := [] }) = .ok τ₁)
    (hlast : τ₁.get? h = some last) :
    ∃ τ', destroyWithin (generations + 1) h τ = .ok τ' ∧ (∀ g, g ≠ h → τ'.get? g = τ₁.get? g) ∧
      τ'.journal.toList = τ₁.journal.toList ++ [.stateDestroyed last.place h] := by
  obtain ⟨arena, hremove⟩ : ∃ arena, τ₁.arena.remove h = some (last, arena) :=
    ⟨_, Arena.remove_eq_some.mpr ⟨hlast, rfl⟩⟩
  refine ⟨(({ τ₁ with arena } : Store).dismiss last.place h).announce
    (.stateDestroyed last.place h), ?_, fun g hne => ?_, ?_⟩
  · rw [← howned.foldlM_releaseWith] at hfold
    exact destroyWithin_succ_eq_ok.mpr ⟨state, τ₁, last, arena, hstate, hfold, hremove, rfl⟩
  · rw [get?_announce, get?_remove hremove, if_neg hne]
  · obtain ⟨register, hregister⟩ := dismiss_eq ({ τ₁ with arena } : Store) last.place h
    rw [hregister]
    simp [announce]

end Store

namespace Standing

variable {grammar : Grammar} {root h : Handle} {σ τ : Store} {ν : Handle → Option Node}
  {U : Set Handle} {path : Path}

/-- Nothing is below two children of a state. -/
theorem apart_children (hσ : Standing grammar root σ ν ∅ U) {state : State}
    (hstate : σ.get? h = some state) (hclimbs : σ.Climbs h path) :
    (state.branches.flatMap fun entry => entry.2.children).Pairwise σ.Apart := by
  have hopen : h ∉ (∅ : Set Handle) := Set.notMem_empty h
  refine (hσ.nodup_children hstate hopen).imp_of_mem fun {d c} hd hc hne g hunder hunder' => hne ?_
  obtain ⟨name, slot, hplace⟩ := hσ.place?_of_child hstate hopen hd
  obtain ⟨name', slot', hplace'⟩ := hσ.place?_of_child hstate hopen hc
  exact Store.eq_of_under_both hplace (.within hplace hclimbs) hplace' (.within hplace' hclimbs)
    hunder hunder'

/-- Removing a state announces the events of its replayed removal. -/
theorem departs (hσ : Standing grammar root σ ν ∅ U) (generations : Nat)
    (hclimbs : σ.Climbs h path) (hgenerations : σ.arena.occupied ≤ generations + path.length) :
    σ.Departs (Store.destroyWithin generations) (σ.removalWithin generations) h := by
  -- Each generation less is one step further down.
  induction generations generalizing h path with
  | zero =>
    have hlt := hclimbs.length_lt
    omega
  | succ generations ih =>
    intro τ hholds
    obtain ⟨state, hstate⟩ := hclimbs.live
    have hopen : h ∉ (∅ : Set Handle) := Set.notMem_empty h
    have howned := hσ.owned h state hstate
    have hheld : τ.get? h = some state :=
      (hholds h (List.mem_singleton.mpr rfl) h .refl).trans hstate
    have hget : ∀ g, (τ.modify h fun state => { state with inners := [] }).get? g =
        if g = h then some { state with inners := [] } else τ.get? g := fun g => by
      rw [Store.get?_modify, hheld]
      rfl
    have hbelow : ∀ d ∈ state.branches.flatMap fun entry => entry.2.children, ∀ g,
        σ.Under d g → σ.Under h g ∧ g ≠ h := fun d hd g hunder =>
      hσ.under_of_child hstate hopen hclimbs hd hunder
    obtain ⟨τ₁, events, hfold, hevents, hsheds⟩ := Store.departs_branches
      (Store.destroyWithin generations) (σ.removalWithin generations) h
      (fun d hd => by
        obtain ⟨name, slot, hplace⟩ := hσ.place?_of_child hstate hopen hd
        exact ih (.within hplace hclimbs) (by simp; omega))
      (hσ.apart_children hstate hclimbs)
      (τ := τ.modify h fun state => { state with inners := [] }) fun d hd g hunder => by
        obtain ⟨hunder, hne⟩ := hbelow d hd g hunder
        rw [hget, if_neg hne]
        exact hholds h (List.mem_singleton.mpr rfl) g hunder
    have hlast : τ₁.get? h = some { state with inners := [] } := by
      rw [hsheds.kept h fun d hd hunder => (hbelow d hd h hunder).2 rfl, hget, if_pos rfl]
    obtain ⟨τ', hdestroy, hkept, hjournal⟩ := Store.exists_destroyed hheld howned hfold hlast
    refine ⟨τ', events ++ [.stateDestroyed state.place h], hdestroy, ?_, fun g hg => ?_, ?_⟩
    · rw [Store.removalWithin, Store.expect_eq_ok.mpr hstate, ok_bind,
        Store.eventsOfAll_inners howned (Store.branchRemoval (σ.removalWithin generations)),
        hevents]
      rfl
    · have hunder : ¬ σ.Under h g := hg h (List.mem_singleton.mpr rfl)
      have hne : g ≠ h := fun heq => hunder (heq ▸ .refl)
      rw [hkept g hne, hsheds.kept g fun d hd hunder' => hunder (hbelow d hd g hunder').1, hget,
        if_neg hne]
    · rw [hjournal, hsheds.journal, List.append_assoc]
      rfl

/-- Removing the state of the whole document announces the events of its replayed removal. -/
theorem destroy_root (hσ : Standing grammar root σ ν ∅ U) :
    ∃ σ' events, σ.destroy root = .ok σ' ∧ σ.removalEvents root = .ok events ∧
      σ'.journal.toList = σ.journal.toList ++ events := by
  obtain ⟨σ', events, hdestroy, hreplay, hsheds⟩ := hσ.departs σ.generations hσ.climbs_root
    (σ.occupied_lt_generations.le.trans (Nat.le_add_right _ _)) σ fun _ _ _ _ => rfl
  exact ⟨σ', events, hdestroy, hreplay, hsheds.journal⟩

end Standing

end TreeEditor
