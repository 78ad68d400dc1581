import TreeEditor.Proofs.Steps

/-!
# Shifted siblings

After a branch has changed, `Store.reindex` gives its children the places that their slots now are.
It goes over the children twice: it moves every child, taking its earlier place off the register,
and then puts the new places on the register. In between the register holds the places of the
children that did not move and of no other child (`Store.Relocated.stateAt?`), so whatever places
the children pass to each other, in the end each place leads to the child that stands there
(`Store.Rekeyed`). All that asks of a store is a faithful register and children that stand in slots
of the branch; a store that stands goes on standing (`Standing.reindex`).
-/

namespace TreeEditor

namespace Store

variable {σ σ' : Store} {o g : Handle} {name : String} {branch : Branch}

/-- The children of a branch have moved to their slots, and nothing else has changed. -/
structure Shifts (σ σ' : Store) (o : Handle) (name : String) (branch : Branch) : Prop where
  moved : ∀ slot child, branch.childAt? slot = some child → σ'.get? child =
    (σ.get? child).map fun state => { state with place := .within o name slot }
  kept : ∀ g, g ∉ branch.children → σ'.get? g = σ.get? g

namespace Shifts

/-- A child stands in its slot. -/
theorem place?_moved (h : σ.Shifts σ' o name branch) {slot : Slot} {child : Handle}
    (hchild : branch.childAt? slot = some child) (hlive : σ.Live child) :
    σ'.place? child = some (.within o name slot) := by
  obtain ⟨state, hstate⟩ := hlive
  rw [place?, h.moved slot child hchild, hstate]
  rfl

/-- What is no child stands where it stood. -/
theorem place?_kept (h : σ.Shifts σ' o name branch) (hg : g ∉ branch.children) :
    σ'.place? g = σ.place? g := by
  unfold place?
  rw [h.kept g hg]

/-- No state has got another stage or other branches. -/
theorem get?_eq_some (h : σ.Shifts σ' o name branch) {state' : State}
    (hstate' : σ'.get? g = some state') : ∃ state, σ.get? g = some state ∧
      state'.stage = state.stage ∧ state'.inners = state.inners := by
  by_cases hg : g ∈ branch.children
  · obtain ⟨slot, hslot⟩ := Branch.mem_children.mp hg
    rw [h.moved slot g hslot] at hstate'
    obtain ⟨state, hstate, rfl⟩ := Option.map_eq_some_iff.mp hstate'
    exact ⟨state, hstate, rfl, rfl⟩
  · rw [h.kept g hg] at hstate'
    exact ⟨state', hstate', rfl, rfl⟩

/-- The branches are kept for the states that they were kept for. -/
theorem owned (h : σ.Shifts σ' o name branch) (hσ : σ.Owned) : σ'.Owned := by
  intro g state' hstate'
  obtain ⟨state, hstate, -, hinners⟩ := h.get?_eq_some hstate'
  rw [State.OwnedBy, hinners]
  exact hσ g state hstate

/-- No state has changed but in its place. -/
theorem body? (h : σ.Shifts σ' o name branch) (g : Handle) : σ'.body? g = σ.body? g := by
  unfold Store.body?
  by_cases hg : g ∈ branch.children
  · obtain ⟨slot, hslot⟩ := Branch.mem_children.mp hg
    rw [h.moved slot g hslot, Option.map_map]
    rfl
  · rw [h.kept g hg]

/-- Every state has the branches that it had. -/
theorem branches (h : σ.Shifts σ' o name branch) (g : Handle) :
    (σ'.get? g).map State.branches = (σ.get? g).map State.branches := by
  by_cases hg : g ∈ branch.children
  · obtain ⟨slot, hslot⟩ := Branch.mem_children.mp hg
    rw [h.moved slot g hslot, Option.map_map]
    rfl
  · rw [h.kept g hg]

/-- The same states are live. -/
theorem live (h : σ.Shifts σ' o name branch) (g : Handle) : σ'.Live g ↔ σ.Live g := by
  constructor
  · rintro ⟨state', hstate'⟩
    obtain ⟨state, hstate, -⟩ := h.get?_eq_some hstate'
    exact ⟨state, hstate⟩
  · rintro ⟨state, hstate⟩
    by_cases hg : g ∈ branch.children
    · obtain ⟨slot, hslot⟩ := Branch.mem_children.mp hg
      exact live_of_place? (h.place?_moved hslot ⟨state, hstate⟩)
    · exact ⟨state, (h.kept g hg).trans hstate⟩

/-- There still is a way up from every state: the children stay children of the same state, so it
goes through the same states. -/
theorem climbs (h : σ.Shifts σ' o name branch)
    (hchildren : ∀ child ∈ branch.children, ∃ slot, σ.place? child = some (.within o name slot))
    {path : Path} (hclimbs : σ.Climbs g path) : ∃ path, σ'.Climbs g path := by
  induction hclimbs with
  | @root g hplace =>
    refine ⟨[], .root ?_⟩
    rw [h.place?_kept, hplace]
    intro hmem
    obtain ⟨slot, hslot⟩ := hchildren g hmem
    cases hplace.symm.trans hslot
  | @within g parent _ _ _ hplace _ ih =>
    obtain ⟨up, hup⟩ := ih
    by_cases hg : g ∈ branch.children
    · obtain ⟨slot, hslot⟩ := Branch.mem_children.mp hg
      obtain ⟨slot', hplace'⟩ := hchildren g hg
      have hlive := live_of_place? hplace
      rw [hplace] at hplace'
      cases hplace'
      exact ⟨_, .within (h.place?_moved hslot hlive) hup⟩
    · exact ⟨_, .within ((h.place?_kept hg).trans hplace) hup⟩

/-- What stands in the slots of the owner: the children where the branch has them, and what stood
there before without being a child. -/
theorem stands_iff (h : σ.Shifts σ' o name branch)
    (hchildren : ∀ child ∈ branch.children, ∃ slot, σ.place? child = some (.within o name slot))
    (child : Handle) (other : String) (slot : Slot) :
    σ'.place? child = some (.within o other slot) ↔
      (other = name ∧ branch.childAt? slot = some child) ∨
        (child ∉ branch.children ∧ σ.place? child = some (.within o other slot)) := by
  by_cases hchild : child ∈ branch.children
  · obtain ⟨slot', hslot⟩ := Branch.mem_children.mp hchild
    obtain ⟨_, hplace⟩ := hchildren child hchild
    have hlive := live_of_place? hplace
    constructor
    · intro heq
      rw [h.place?_moved hslot hlive] at heq
      cases heq
      exact .inl ⟨rfl, hslot⟩
    · rintro (⟨rfl, hslot'⟩ | ⟨hnot, -⟩)
      · exact h.place?_moved hslot' hlive
      · exact absurd hchild hnot
  · rw [h.place?_kept hchild]
    constructor
    · exact fun hplace => .inr ⟨hchild, hplace⟩
    · rintro (⟨-, hslot⟩ | ⟨-, hplace⟩)
      · exact absurd (Branch.mem_children.mpr ⟨slot, hslot⟩) hchild
      · exact hplace

section Whole

variable (hmem : ∀ child, child ∈ branch.children ↔
  ∃ slot, σ.place? child = some (.within o name slot))

include hmem

/-- When the children are all that stands under the name they stand where the branch has them. -/
theorem stands (h : σ.Shifts σ' o name branch) (child : Handle) (slot : Slot) :
    σ'.place? child = some (.within o name slot) ↔ branch.childAt? slot = some child := by
  rw [h.stands_iff (fun child hchild => (hmem child).mp hchild), hmem]
  constructor
  · rintro (⟨-, hchild⟩ | ⟨hnot, hplace⟩)
    · exact hchild
    · exact absurd ⟨slot, hplace⟩ hnot
  · exact fun hchild => .inl ⟨rfl, hchild⟩

/-- What stands under other names is left alone. -/
theorem others (h : σ.Shifts σ' o name branch) {other : String} (hne : other ≠ name)
    (child : Handle) (slot : Slot) : σ'.place? child = some (.within o other slot) ↔
      σ.place? child = some (.within o other slot) := by
  rw [h.stands_iff (fun child hchild => (hmem child).mp hchild), hmem]
  constructor
  · rintro (⟨heq, -⟩ | ⟨-, hplace⟩)
    · exact absurd heq hne
    · exact hplace
  · refine fun hplace => .inr ⟨?_, hplace⟩
    rintro ⟨slot', hplace'⟩
    rw [hplace] at hplace'
    cases hplace'
    exact hne rfl

/-- A state stays where it is or moves from one slot of the branch to another. -/
theorem places (h : σ.Shifts σ' o name branch) (hlive : σ.Live g) :
    σ'.place? g = σ.place? g ∨ ∃ slot slot', σ.place? g = some (.within o name slot) ∧
      σ'.place? g = some (.within o name slot') := by
  by_cases hg : g ∈ branch.children
  · obtain ⟨slot, hplace⟩ := (hmem g).mp hg
    obtain ⟨slot', hslot'⟩ := Branch.mem_children.mp hg
    exact .inr ⟨slot, slot', hplace, h.place?_moved hslot' hlive⟩
  · exact .inl (h.place?_kept hg)

end Whole

/-- What is below a state that is apart from the children is below it still. -/
theorem under_iff (h : σ.Shifts σ' o name branch) {c : Handle}
    (hchildren : ∀ child ∈ branch.children, ∃ slot, σ.place? child = some (.within o name slot))
    (hapart : ∀ g, σ.Under c g → g ∉ branch.children) (howner : ¬ σ.Under c o) (g : Handle) :
    σ'.Under c g ↔ σ.Under c g := by
  constructor
  · intro hunder
    induction hunder with
    | refl => exact .refl
    | @within g parent _ _ hplace _ ih =>
      by_cases hg : g ∈ branch.children
      · obtain ⟨slot, hslot⟩ := Branch.mem_children.mp hg
        obtain ⟨_, hplace'⟩ := hchildren g hg
        rw [h.place?_moved hslot (live_of_place? hplace')] at hplace
        cases hplace
        exact absurd ih howner
      · exact .within ((h.place?_kept hg).symm.trans hplace) ih
  · intro hunder
    induction hunder with
    | refl => exact .refl
    | within hplace up ih =>
      exact .within ((h.place?_kept (hapart _ (.within hplace up))).trans hplace) ih

end Shifts

/-- Every place on the register leads to a state that stands there. -/
def Faithful (σ : Store) : Prop :=
  ∀ place h, σ.stateAt? place = some h → σ.place? h = some place

/-- Some of the children have been moved, none of which has been put on the register again. -/
structure Relocated (σ σ' : Store) (o : Handle) (name : String) (done : List (Slot × Handle)) :
    Prop where
  moved : ∀ slot child, (slot, child) ∈ done → σ'.get? child =
    (σ.get? child).map fun state => { state with place := .within o name slot }
  kept : ∀ g, g ∉ done.map Prod.snd → σ'.get? g = σ.get? g
  stateAt? : ∀ place g, σ'.stateAt? place = some g ↔ σ.stateAt? place = some g ∧
    ∀ slot, (slot, g) ∈ done → place = .within o name slot

/-- A child that has not been moved can be moved. -/
theorem Relocated.relocate {done : List (Slot × Handle)} (hσ' : σ.Relocated σ' o name done)
    (hfaithful : σ.Faithful) {slot : Slot} {child : Handle}
    (hchild : child ∉ done.map Prod.snd) (hlive : σ.Live child) :
    ∃ σ'', σ'.relocate (.within o name slot) child = .ok σ'' ∧
      σ.Relocated σ'' o name (done ++ [(slot, child)]) := by
  obtain ⟨state, hstate⟩ := hlive
  have hstate' : σ'.get? child = some state := (hσ'.kept child hchild).trans hstate
  have hfrom : ∀ place, σ.stateAt? place = some child → place = state.place := by
    intro place hleads
    have hplace : σ.place? child = some state.place := place?_eq_some.mpr ⟨state, hstate, rfl⟩
    exact Option.some.inj ((hfaithful place child hleads).symm.trans hplace)
  have hnotDone : ∀ slot', (slot', child) ∉ done := fun slot' hmem =>
    hchild (List.mem_map_of_mem (f := Prod.snd) hmem)
  have hall : ∀ (place : Place) (g : Handle), (∀ slot', (slot', g) ∈ done ++ [(slot, child)] →
      place = .within o name slot') ↔
      (∀ slot', (slot', g) ∈ done → place = .within o name slot') ∧
        (g = child → place = .within o name slot) := by
    intro place g
    simp only [List.mem_append, List.mem_singleton, Prod.mk.injEq, or_imp, forall_and, and_imp,
      forall_eq]
  unfold Store.relocate
  rw [expect_eq_ok.mpr hstate', ok_bind]
  by_cases hstays : state.place = .within o name slot
  · rw [if_pos hstays, pure_eq_ok]
    refine ⟨σ', rfl, ?_, ?_, ?_⟩
    · intro slot' child' hmem
      rcases List.mem_append.mp hmem with hmem | hmem
      · exact hσ'.moved slot' child' hmem
      · cases List.mem_singleton.mp hmem
        rw [hstate', hstate, Option.map_some, ← hstays]
    · intro g hg
      exact hσ'.kept g fun hmem => hg (by simp [List.mem_map.mp hmem])
    · intro place g
      rw [hσ'.stateAt?, hall]
      refine and_congr_right fun hleads => (and_iff_left fun hg => ?_).symm
      subst hg
      exact (hfrom place hleads).trans hstays
  · rw [if_neg hstays, pure_eq_ok]
    refine ⟨_, rfl, ?_, ?_, ?_⟩
    · intro slot' child' hmem
      rw [get?_dismiss, get?_modify]
      rcases List.mem_append.mp hmem with hmem | hmem
      · rw [if_neg fun heq : child' = child => hnotDone slot' (heq ▸ hmem)]
        exact hσ'.moved slot' child' hmem
      · cases List.mem_singleton.mp hmem
        rw [if_pos rfl, hstate', hstate]
    · intro g hg
      rw [List.map_append, List.mem_append, not_or] at hg
      rw [get?_dismiss, get?_modify,
        if_neg fun heq : g = child => hg.2 (List.mem_singleton.mpr heq)]
      exact hσ'.kept g hg.1
    · intro place g
      rw [stateAt?_dismiss, stateAt?_modify, stateAt?_modify, hall]
      -- Only the place that the child leaves is taken off, and only where it led to the child.
      split
      · rename_i hleft
        obtain ⟨rfl, hchild'⟩ := hleft
        refine iff_of_false nofun fun hleads => hstays (hleads.2.2 ?_)
        exact Option.some.inj (hleads.1.symm.trans ((hσ'.stateAt? _ _).mp hchild').1)
      · rename_i hleft
        rw [hσ'.stateAt?]
        refine and_congr_right fun hleads => (and_iff_left_of_imp fun hdone hg => ?_).symm
        subst hg
        obtain rfl := hfrom place hleads
        exact absurd ⟨rfl, (hσ'.stateAt? _ _).mpr ⟨hleads, hdone⟩⟩ hleft

/-- Putting children on the register changes nothing but the register. -/
theorem get?_foldl_enroll (o : Handle) (name : String) (slots : List (Slot × Handle)) (g : Handle) :
    (slots.foldl (fun σ (slot, child) => σ.enroll (.within o name slot) child) σ).get? g =
      σ.get? g := by
  induction slots generalizing σ with
  | nil => rfl
  | cons entry rest ih => exact ih

/-- Every place that a child was put on leads to the last such child, the others where they led. -/
theorem stateAt?_foldl_enroll (o : Handle) (name : String) (slots : List (Slot × Handle))
    (place : Place) :
    (∃ slot child, (slot, child) ∈ slots ∧ place = .within o name slot ∧
      (slots.foldl (fun σ (slot, child) => σ.enroll (.within o name slot) child) σ).stateAt? place =
        some child) ∨
    (∀ slot child, (slot, child) ∈ slots → place ≠ .within o name slot) ∧
      (slots.foldl (fun σ (slot, child) => σ.enroll (.within o name slot) child) σ).stateAt? place =
        σ.stateAt? place := by
  induction slots using List.reverseRecOn with
  | nil => exact .inr ⟨nofun, rfl⟩
  | append_singleton rest entry ih =>
    obtain ⟨slot, child⟩ := entry
    rw [List.foldl_append, List.foldl_cons, List.foldl_nil, stateAt?_enroll]
    split
    · rename_i heq
      exact .inl ⟨slot, child, by simp, heq, rfl⟩
    · rename_i hne
      rcases ih with ⟨slot', child', hmem, heq, hleads⟩ | ⟨hothers, hleads⟩
      · exact .inl ⟨slot', child', List.mem_append_left _ hmem, heq, hleads⟩
      · refine .inr ⟨fun slot' child' hmem => ?_, hleads⟩
        rcases List.mem_append.mp hmem with hmem | hmem
        · exact hothers slot' child' hmem
        · cases List.mem_singleton.mp hmem
          exact hne

/-- Every child of a branch can be moved to its slot. -/
theorem relocated_all (o : Handle) (name : String) (hfaithful : σ.Faithful)
    (hnodup : branch.children.Nodup) (hlive : ∀ child ∈ branch.children, σ.Live child) :
    ∃ σ', branch.slots.foldlM (fun σ (slot, child) =>
        σ.relocate (.within o name slot) child) σ = .ok σ' ∧
      σ.Relocated σ' o name branch.slots := by
  refine foldlM_ok _ (I := fun done σ' => σ.Relocated σ' o name done)
    ⟨nofun, fun _ _ => rfl, fun place g => by simp⟩ ?_
  rintro done ⟨slot, child⟩ rest σ' hslots hσ'
  have hchildren : branch.children = done.map Prod.snd ++ child :: rest.map Prod.snd := by
    unfold Branch.children
    rw [hslots, List.map_append, List.map_cons]
  refine hσ'.relocate hfaithful (fun hmem => ?_) (hlive child (by simp [hchildren]))
  rw [hchildren] at hnodup
  exact (List.nodup_append.mp hnodup).2.2 child hmem child List.mem_cons_self rfl

/-- When the children of a branch have moved to their slots they are put on the register there. -/
theorem reindex_eq {σ₁ : Store} (hbranch : σ.branch? o name = some branch)
    (hmoved : branch.slots.foldlM (fun σ (slot, child) =>
      σ.relocate (.within o name slot) child) σ = .ok σ₁) :
    σ.reindex o name = .ok (branch.slots.foldl (fun σ (slot, child) =>
      σ.enroll (.within o name slot) child) σ₁) := by
  unfold Store.reindex
  rw [branch_eq_ok.mpr hbranch]
  dsimp only
  rw [hmoved]
  rfl

/-! ## Places put right -/

/-- The register leads to the children of a branch where the branch has them, and elsewhere to what
it led to. -/
structure Rekeyed (σ σ' : Store) (owner : Handle) (name : String) (branch : Branch) : Prop where
  /-- The register and the child agree with every slot of the branch. -/
  agrees : ∀ slot child, branch.childAt? slot = some child →
    σ'.stateAt? (.within owner name slot) = some child ∧
      σ'.place? child = some (.within owner name slot)
  /-- No slot leads to a child that the branch has in another one. -/
  apart : ∀ slot child, child ∈ branch.children →
    σ'.stateAt? (.within owner name slot) = some child → branch.childAt? slot = some child
  /-- A slot that the branch does not have leads on to a state that is no child of it. -/
  left : ∀ slot, branch.childAt? slot = none → ∀ g,
    σ'.stateAt? (.within owner name slot) = some g ↔
      σ.stateAt? (.within owner name slot) = some g ∧ g ∉ branch.children
  /-- Every other place leads where it led. -/
  others : ∀ place, place.branch? ≠ some ⟨owner, name⟩ → σ'.stateAt? place = σ.stateAt? place
  /-- The children have moved to their slots, and no other state has changed. -/
  shifts : σ.Shifts σ' owner name branch
  /-- The register is faithful. -/
  faithful : σ'.Faithful

/-- When the children of a branch that have moved are put on the register their slots lead to them,
and the other places to what is no child. -/
theorem stateAt?_rekeyed (hmoved : σ.Relocated σ₁ o name branch.slots) (place : Place)
    (g : Handle) :
    (branch.slots.foldl (fun σ (slot, child) =>
      σ.enroll (.within o name slot) child) σ₁).stateAt? place = some g ↔
        (∃ slot, place = .within o name slot ∧ branch.childAt? slot = some g) ∨
          g ∉ branch.children ∧ σ.stateAt? place = some g ∧
            ∀ slot, place = .within o name slot → branch.childAt? slot = none := by
  -- Either some child was put on the register at this place, or the place leads where it led
  -- before.
  rcases stateAt?_foldl_enroll (σ := σ₁) o name branch.slots place with
    ⟨slot, child, hmem, rfl, hleads⟩ | ⟨hnone, hleads⟩
  · have hslot := Branch.mem_slots.mp hmem
    rw [hleads, ← hslot]
    constructor
    · exact fun heq => .inl ⟨slot, rfl, heq⟩
    · rintro (⟨slot', heq, hslot'⟩ | ⟨-, -, hnone⟩)
      · cases heq
        exact hslot'
      · cases (hnone slot rfl).symm.trans hslot
  · rw [hleads, hmoved.stateAt?]
    constructor
    · rintro ⟨hat, hdone⟩
      refine .inr ⟨fun hchild => ?_, hat, fun slot heq => ?_⟩
      · obtain ⟨slot, hslot⟩ := Branch.mem_children.mp hchild
        have hmem := Branch.mem_slots.mpr hslot
        exact hnone slot g hmem (hdone slot hmem)
      · refine Option.eq_none_iff_forall_ne_some.mpr fun child hslot => ?_
        exact hnone slot child (Branch.mem_slots.mpr hslot) heq
    · rintro (⟨slot, heq, hslot⟩ | ⟨hchild, hat, -⟩)
      · exact absurd heq (hnone slot g (Branch.mem_slots.mpr hslot))
      · exact ⟨hat, fun slot hmem => absurd (List.mem_map_of_mem (f := Prod.snd) hmem) hchild⟩

/-- Whatever children a branch has, if they are different and stand in slots of it they can be given
the places of the slots that they have. -/
theorem exists_rekeyed (hfaithful : σ.Faithful) (hbranch : σ.branch? o name = some branch)
    (hnodup : branch.children.Nodup)
    (hchildren : ∀ child ∈ branch.children, ∃ slot,
      σ.place? child = some (.within o name slot)) :
    ∃ σ', σ.reindex o name = .ok σ' ∧ σ.Rekeyed σ' o name branch := by
  have hlive : ∀ child ∈ branch.children, σ.Live child := fun child hchild =>
    (hchildren child hchild).elim fun _ hplace => live_of_place? hplace
  obtain ⟨σ₁, hσ₁, hmoved⟩ := relocated_all o name hfaithful hnodup hlive
  have hget := get?_foldl_enroll (σ := σ₁) o name branch.slots
  have hkeys := stateAt?_rekeyed hmoved
  refine ⟨_, reindex_eq hbranch hσ₁, ?_⟩
  -- What the fold has done is known by now, slot by slot and place by place.
  generalize branch.slots.foldl (fun σ (slot, child) =>
    σ.enroll (.within o name slot) child) σ₁ = σ' at hget hkeys
  have hshifts : σ.Shifts σ' o name branch :=
    ⟨fun slot child hchild => (hget child).trans
        (hmoved.moved slot child (Branch.mem_slots.mpr hchild)),
      fun g hg => (hget g).trans (hmoved.kept g hg)⟩
  have hplaces : ∀ slot child, branch.childAt? slot = some child →
      σ'.place? child = some (.within o name slot) := fun slot child hslot =>
    hshifts.place?_moved hslot (hlive child (Branch.mem_children.mpr ⟨slot, hslot⟩))
  exact {
    agrees := fun slot child hslot =>
      ⟨(hkeys _ _).mpr (.inl ⟨slot, rfl, hslot⟩), hplaces slot child hslot⟩
    apart := fun slot child hchild hat => by
      rcases (hkeys _ _).mp hat with ⟨_, heq, hslot⟩ | ⟨hnot, -⟩
      · cases heq
        exact hslot
      · exact absurd hchild hnot
    left := fun slot hnone g => by
      rw [hkeys]
      constructor
      · rintro (⟨_, heq, hslot⟩ | ⟨hnot, hat, -⟩)
        · cases heq
          cases hnone.symm.trans hslot
        · exact ⟨hat, hnot⟩
      · rintro ⟨hat, hnot⟩
        refine .inr ⟨hnot, hat, fun _ heq => ?_⟩
        cases heq
        exact hnone
    others := fun place hne => by
      have haway : ∀ slot, place ≠ .within o name slot := fun slot heq => hne (heq ▸ rfl)
      apply Option.ext
      intro g
      rw [hkeys]
      constructor
      · rintro (⟨slot, heq, -⟩ | ⟨-, hat, -⟩)
        · exact absurd heq (haway slot)
        · exact hat
      · refine fun hat => .inr ⟨fun hchild => ?_, hat, fun slot heq => absurd heq (haway slot)⟩
        obtain ⟨slot, hplace⟩ := hchildren g hchild
        exact haway slot (Option.some.inj ((hfaithful place g hat).symm.trans hplace))
    shifts := hshifts
    faithful := fun place g hat => by
      rcases (hkeys _ _).mp hat with ⟨slot, rfl, hslot⟩ | ⟨hnot, hat, -⟩
      · exact hplaces slot g hslot
      · exact (hshifts.place?_kept hnot).trans (hfaithful place g hat) }

/-- What moving a state and registering a place keep, giving the children of a branch their places
keeps. -/
theorem reindex_keeps {R : Store → Store → Prop} (hrefl : ∀ σ, R σ σ)
    (htrans : ∀ σ σ₁ σ', R σ σ₁ → R σ₁ σ' → R σ σ')
    (hrelocate : ∀ σ place g σ', σ.relocate place g = .ok σ' → R σ σ')
    (henroll : ∀ σ place g, R σ (σ.enroll place g)) (hreindex : σ.reindex o name = .ok σ') :
    R σ σ' := by
  unfold Store.reindex at hreindex
  split at hreindex
  · cases hreindex
    exact hrefl _
  · rename_i branch _
    obtain ⟨σ₁, hmoved, hlast⟩ := bind_eq_ok.mp hreindex
    cases hlast
    have hfirst : R σ σ₁ := rel_of_foldlM hrefl htrans
      (fun σ entry σ' hone => hrelocate σ _ entry.2 σ' hone) hmoved
    refine List.foldlRecOn (motive := fun σ' => R σ σ') branch.slots _ hfirst ?_
    exact fun σ' hσ' entry _ => htrans σ σ' _ hσ' (henroll σ' _ entry.2)

/-- A store is in order after a state has moved. -/
theorem sound_of_relocate {place : Place} (harena : σ.arena.Sound)
    (hkeys : (Table.keys σ.register).Nodup) (h : σ.relocate place g = .ok σ') :
    σ'.arena.Sound ∧ (Table.keys σ'.register).Nodup := by
  obtain ⟨state, -, h⟩ := bind_eq_ok.mp h
  split at h
  · cases h
    exact ⟨harena, hkeys⟩
  · cases h
    rw [arena_dismiss]
    exact ⟨harena.modify g (fun state : State => { state with place }),
      nodup_keys_dismiss hkeys⟩

/-- A store is in order after the children of a branch have got their places. -/
theorem sound_of_reindex (harena : σ.arena.Sound) (hkeys : (Table.keys σ.register).Nodup)
    (hreindex : σ.reindex o name = .ok σ') :
    σ'.arena.Sound ∧ (Table.keys σ'.register).Nodup :=
  reindex_keeps (R := fun σ σ' => σ.arena.Sound ∧ (Table.keys σ.register).Nodup →
      σ'.arena.Sound ∧ (Table.keys σ'.register).Nodup)
    (fun _ h => h) (fun _ _ _ h h' hσ => h' (h hσ))
    (fun _ _ _ _ hmoved hσ => sound_of_relocate hσ.1 hσ.2 hmoved)
    (fun _ _ _ hσ => ⟨hσ.1, Table.nodup_keys_set hσ.2 _⟩) hreindex ⟨harena, hkeys⟩

end Store

namespace Standing

variable {grammar : Grammar} {root o : Handle} {σ : Store} {ν : Handle → Option Node}
  {H U U' : Set Handle} {name : String} {branch : Branch}

/-- The children of a branch of an open state can be given the places that their slots now are. What
stands under the name but is not in the branch any more stays loose. -/
theorem reindex (hσ : Standing grammar root σ ν H U) (hopen : o ∈ H)
    (hbranch : σ.branch? o name = some branch) (hnodup : branch.children.Nodup)
    (hchildren : ∀ child ∈ branch.children, ∃ slot, σ.place? child = some (.within o name slot))
    (hU : ∀ g ∈ U, g ∈ branch.children ∨ g ∈ U')
    (hothers : ∀ g slot, σ.place? g = some (.within o name slot) → g ∈ branch.children ∨ g ∈ U') :
    ∃ σ', σ.reindex o name = .ok σ' ∧ Standing grammar root σ' ν H U' ∧
      σ.Shifts σ' o name branch := by
  obtain ⟨σ', hreindex, hrekeyed⟩ := Store.exists_rekeyed hσ.registered hbranch hnodup hchildren
  obtain ⟨hsound, hkeys⟩ := Store.sound_of_reindex hσ.arena hσ.keys hreindex
  have hshifts := hrekeyed.shifts
  have hlive : ∀ child ∈ branch.children, σ.Live child := fun child hmem =>
    (hchildren child hmem).elim fun _ hplace => Store.live_of_place? hplace
  refine ⟨σ', hreindex, hσ.transfer hsound hkeys hrekeyed.faithful ?_ ?_ ?_
    (hshifts.owned hσ.owned) ?_, hshifts⟩
  · intro place g hplace hloose
    by_cases hg : g ∈ branch.children
    · obtain ⟨slot, hslot⟩ := Branch.mem_children.mp hg
      cases (hrekeyed.agrees slot g hslot).2.symm.trans hplace
      exact (hrekeyed.agrees slot g hslot).1
    · rw [hshifts.place?_kept hg] at hplace
      rw [hrekeyed.others place fun hhere => ?_]
      · exact hσ.enrolled place g hplace fun hmem => (hU g hmem).elim hg hloose
      · cases place with
        | root => cases hhere
        | within _ _ slot =>
          cases hhere
          exact (hothers g slot hplace).elim hg hloose
  · intro g
    by_cases hg : g ∈ branch.children
    · obtain ⟨slot, hslot⟩ := Branch.mem_children.mp hg
      obtain ⟨slot', hplace⟩ := hchildren g hg
      rw [hshifts.place?_moved hslot (hlive g hg)]
      refine ⟨nofun, fun hroot => ?_⟩
      rw [(hσ.root_iff g).mpr hroot] at hplace
      cases hplace
    · rw [hshifts.place?_kept hg]
      exact hσ.root_iff g
  · intro g hg
    obtain ⟨path, hclimbs⟩ := hσ.rooted g ((hshifts.live g).mp hg)
    exact hshifts.climbs hchildren hclimbs
  · intro g state' hstate' hclosed
    obtain ⟨state, hstate, hstage, hinners⟩ := hshifts.get?_eq_some hstate'
    have hbranches : state'.branches = state.branches := by
      rw [State.branches, hinners, State.branches]
    refine ⟨hclosed, ⟨state, hstate, hstage, hbranches⟩, fun name' slot' child => ?_⟩
    by_cases hchild : child ∈ branch.children
    · obtain ⟨slot, hslot⟩ := Branch.mem_children.mp hchild
      obtain ⟨slot'', hplace⟩ := hchildren child hchild
      rw [hshifts.place?_moved hslot (hlive child hchild), hplace]
      constructor <;> intro heq <;> cases heq <;> exact absurd hopen hclosed
    · rw [hshifts.place?_kept hchild]

end Standing

end TreeEditor
