import TreeEditor.Proofs.Reindex
import TreeEditor.Proofs.Removal

/-!
# Rearranged branches

A branch is rearranged when its children are put in another order, some are dropped and new ones put
among them. The register then has to follow. `Store.reindex` does that for the places of the branch,
whatever places the children pass to each other and whichever of them a new child was made for
(`Store.Rekeyed`). A dropped child keeps the place that it stood in unless another child has it now,
and only goes off the register when it is destroyed. A removal takes those places off that lead to
the states removed and no others (`Store.Delists`), so it does not matter in which order the dropped
children go.

Nothing is assumed of the store but that its register is faithful: every place on it leads to a
state that stands there. States that are not registered, or that nothing leads to, may be among the
others. That a removal goes through at all needs more: the children that the branch had must be the
tops of a forest of different states (`Store.Planted`).
-/

namespace TreeEditor.Store

variable {σ σ₁ σ' τ : Store} {owner g h : Handle} {name : String} {old new branch : Branch}

/-! ## Other children -/

/-- A branch is to get other children. -/
structure Rearranges (σ : Store) (owner : Handle) (name : String) (old new : Branch) : Prop where
  held : σ.branch? owner name = some old
  /-- No child is put in two slots. -/
  distinct : new.children.Nodup
  /-- Each child stands in a slot of the branch: one that it keeps where it was before, a new one
  where it was made to be. -/
  placed : ∀ child ∈ new.children, ∃ slot, σ.place? child = some (.within owner name slot)

/-! ## What every step of a removal keeps -/

/-- Removes states one after the other. -/
def destroyAll (order : List Handle) (σ : Store) : Except Failure Store :=
  order.foldlM (fun σ h => σ.destroy h) σ

/-- A relation between stores holds of the steps that a removal is made of. -/
structure Stepwise (R : Store → Store → Prop) : Prop where
  refl : ∀ σ, R σ σ
  trans : ∀ σ σ₁ σ', R σ σ₁ → R σ₁ σ' → R σ σ'
  announce : ∀ σ event, R σ (σ.announce event)
  /-- A state gives up its branches before what they hold is removed. -/
  giveUp : ∀ σ h, R σ (σ.modify h fun state => { state with inners := [] })
  /-- The state is taken out and its place off the register. -/
  take : ∀ (σ : Store) h state arena, σ.arena.remove h = some (state, arena) →
    R σ (({ σ with arena } : Store).dismiss state.place h)

section Stepwise

variable {R : Store → Store → Prop} {remove : Handle → Store → Except Failure Store}
  (hR : Stepwise R)

include hR

/-- What the removal of each state keeps the removal of several keeps. -/
theorem Stepwise.foldlM (hremove : ∀ σ h σ', remove h σ = .ok σ' → R σ σ')
    {children : List Handle}
    (h : children.foldlM (fun σ child => remove child σ) σ = .ok σ') : R σ σ' :=
  rel_of_foldlM hR.refl hR.trans (fun σ child σ' => hremove σ child σ') h

/-- What the removal of each state keeps the removal of blocks keeps. -/
theorem Stepwise.releaseBlocks (hremove : ∀ σ h σ', remove h σ = .ok σ' → R σ σ')
    {site : BranchRef} {position : Nat} {blocks : List (Block Node Handle)}
    (h : Store.releaseBlocks remove site position blocks σ = .ok σ') : R σ σ' := by
  induction blocks generalizing σ position with
  | nil =>
    cases h
    exact hR.refl _
  | cons block rest ih =>
    obtain ⟨σ₁, hfirst, hrest⟩ := bind_eq_ok.mp h
    refine hR.trans _ _ _ (hR.foldlM hremove hfirst) (hR.trans _ _ _ ?_ (ih hrest))
    exact hR.announce σ₁ _

/-- What the removal of each state keeps the removal of branches keeps. -/
theorem Stepwise.inners (hremove : ∀ σ h σ', remove h σ = .ok σ' → R σ σ')
    {inners : List (String × Inner)}
    (h : inners.foldlM (fun σ (property, inner) =>
      releaseWith remove inner.owner property inner.branch σ) σ = .ok σ') : R σ σ' := by
  refine rel_of_foldlM hR.refl hR.trans (fun σ entry σ' hfirst => ?_) h
  obtain ⟨name, owner, branch⟩ := entry
  cases branch with
  | blockList blocks => exact hR.releaseBlocks hremove hfirst
  | placeholder child | optional child | list children => exact hR.foldlM hremove hfirst

/-- What every step of a removal keeps the removal keeps. -/
theorem Stepwise.destroyWithin (generations : Nat) :
    ∀ σ h σ', Store.destroyWithin generations h σ = .ok σ' → R σ σ' := by
  -- By induction on the bound: what is under the state goes with one generation less.
  induction generations with
  | zero => exact fun σ h σ' hdestroy => nomatch hdestroy
  | succ generations ih =>
    intro σ h σ' hdestroy
    obtain ⟨state, σ₁, last, arena, -, hrelease, hremove, rfl⟩ :=
      destroyWithin_succ_eq_ok.mp hdestroy
    refine hR.trans _ _ _ (hR.giveUp σ h) (hR.trans _ _ _ (hR.inners ih hrelease) ?_)
    exact hR.trans _ _ _ (hR.take σ₁ h last arena hremove) (hR.announce _ _)

/-- What every step of a removal keeps the removal of several states keeps. -/
theorem Stepwise.destroyAll {order : List Handle} (h : σ.destroyAll order = .ok σ') : R σ σ' :=
  hR.foldlM (fun σ child σ' hdestroy => hR.destroyWithin σ.generations σ child σ' hdestroy) h

end Stepwise

/-! ## Removed states -/

/-- Some states have gone, and the others are as they were. -/
def Fells (σ σ' : Store) (gone : List Handle) : Prop :=
  ∀ g, σ'.get? g = if g ∈ gone then none else σ.get? g

/-- Nothing goes at first. -/
theorem Fells.nil (σ : Store) : σ.Fells σ [] := fun _ => (if_neg List.not_mem_nil).symm

/-- What goes in two steps goes. -/
theorem Fells.append {gone gone' : List Handle} (h : σ.Fells σ₁ gone) (h' : σ₁.Fells σ' gone') :
    σ.Fells σ' (gone ++ gone') := by
  intro g
  rw [h', h]
  by_cases hg : g ∈ gone <;> by_cases hg' : g ∈ gone' <;> simp [hg, hg']

/-- A state that is taken out goes. -/
theorem Fells.take {state : State} {arena : Arena State}
    (hremove : σ.arena.remove h = some (state, arena)) :
    σ.Fells (({ σ with arena } : Store).dismiss state.place h) [h] := by
  intro g
  simp only [get?_remove hremove, List.mem_singleton]

/-! ## Places of removed states -/

/-- States have gone, and the places that led to them have been taken off the register. -/
structure Delists (σ σ' : Store) : Prop where
  /-- The places that are left are those that led to a state that is left. -/
  keys : ∀ place g, σ'.stateAt? place = some g ↔ σ.stateAt? place = some g ∧ σ'.Live g
  /-- What is left stands where it stood. -/
  kept : ∀ g place, σ'.place? g = some place → σ.place? g = some place

/-- What is left was there. -/
theorem Delists.live (h : σ.Delists σ') (hlive : σ'.Live g) : σ.Live g := by
  obtain ⟨place, hplace⟩ := hlive.place?
  exact live_of_place? (h.kept g place hplace)

/-- A register stays faithful. -/
theorem Delists.faithful (h : σ.Delists σ') (hfaithful : σ.Faithful) : σ'.Faithful := by
  intro place g hat
  obtain ⟨hat, hlive⟩ := (h.keys place g).mp hat
  obtain ⟨place', hplace⟩ := hlive.place?
  cases (h.kept g place' hplace).symm.trans (hfaithful place g hat)
  exact hplace

/-- No place goes where all places lead where they led and all states stand where they stood. -/
theorem Delists.of_eq (hfaithful : σ.Faithful)
    (hkeys : ∀ place, σ'.stateAt? place = σ.stateAt? place)
    (hplaces : ∀ g, σ'.place? g = σ.place? g) : σ.Delists σ' where
  keys := fun place g => by
    rw [hkeys]
    refine (and_iff_left_of_imp fun hat => ?_).symm
    exact live_of_place? ((hplaces g).trans (hfaithful place g hat))
  kept := fun g place hplace => (hplaces g).symm.trans hplace

/-- What goes in two steps goes. -/
theorem Delists.trans (h : σ.Delists σ₁) (h' : σ₁.Delists σ') : σ.Delists σ' where
  keys := fun place g => by
    rw [h'.keys, h.keys, and_assoc]
    exact and_congr_right fun _ => and_iff_right_of_imp h'.live
  kept := fun g place hplace => h.kept g place (h'.kept g place hplace)

/-- A state that is taken out gives up its place. -/
theorem Delists.take (hfaithful : σ.Faithful) {state : State} {arena : Arena State}
    (hremove : σ.arena.remove h = some (state, arena)) :
    σ.Delists (({ σ with arena } : Store).dismiss state.place h) := by
  have hstate : σ.place? h = some state.place :=
    place?_eq_some.mpr ⟨state, get?_of_remove hremove, rfl⟩
  have hat : ∀ place, (({ σ with arena } : Store).dismiss state.place h).stateAt? place =
      if place = state.place ∧ σ.stateAt? state.place = some h then none else σ.stateAt? place :=
    fun place => stateAt?_dismiss state.place place h
  refine ⟨fun place g => ?_, fun g place hplace => ?_⟩
  · -- The place goes only if it led to the state that is taken out; otherwise its new owner keeps
    -- it.
    rw [hat, Live, get?_remove hremove]
    by_cases hg : g = h
    · subst hg
      simp only [if_true, reduceCtorEq, exists_false, and_false, iff_false]
      intro hleads
      split at hleads
      · cases hleads
      · rename_i hleft
        obtain rfl := Option.some.inj ((hfaithful place g hleads).symm.trans hstate)
        exact hleft ⟨rfl, hleads⟩
    · rw [if_neg hg]
      split
      · rename_i hleft
        refine iff_of_false (Option.some_ne_none g).symm fun hleads => hg ?_
        rw [hleft.1, hleft.2] at hleads
        exact (Option.some.inj hleads.1).symm
      · exact (and_iff_left_of_imp fun hleads => live_of_place? (hfaithful place g hleads)).symm
  · rw [place?_remove hremove] at hplace
    split at hplace
    · cases hplace
    · exact hplace

/-- On a faithful register removals take those places off that lead to the states removed. -/
theorem stepwise_delists :
    Stepwise fun σ σ' => σ.Faithful → σ.Delists σ' ∧ σ'.Faithful where
  refl := fun σ hfaithful => ⟨.of_eq hfaithful (fun _ => rfl) fun _ => rfl, hfaithful⟩
  trans := fun σ σ₁ σ' h h' hfaithful =>
    have hσ₁ := h hfaithful
    have hσ' := h' hσ₁.2
    ⟨hσ₁.1.trans hσ'.1, hσ'.2⟩
  announce := fun σ event hfaithful => ⟨.of_eq hfaithful (fun _ => rfl) fun _ => rfl, hfaithful⟩
  giveUp := fun σ h hfaithful =>
    have hdelists : σ.Delists (σ.modify h fun state => { state with inners := [] }) :=
      .of_eq hfaithful (fun _ => rfl) (place?_modify (fun _ => by rfl) h)
    ⟨hdelists, hdelists.faithful hfaithful⟩
  take := fun σ h state arena hremove hfaithful =>
    have hdelists := Delists.take hfaithful hremove
    ⟨hdelists, hdelists.faithful hfaithful⟩

/-! ## Forests of states -/

/-- States with everything below them, listed each before what is below it and that before the next
one. -/
inductive Grove (σ : Store) : List Handle → List Handle → Prop where
  | nil : Grove σ [] []
  | cons {h : Handle} {state : State} {rest inner outer : List Handle}
    (live : σ.get? h = some state)
    (inside : Grove σ (state.branches.flatMap fun entry => entry.2.children) inner)
    (others : Grove σ rest outer) : Grove σ (h :: rest) (h :: inner ++ outer)

namespace Grove

variable {tops tops' below below' : List Handle}

/-- The states of a grove are live. -/
theorem live (h : σ.Grove tops below) : ∀ g ∈ below, σ.Live g := by
  induction h with
  | nil => exact fun _ hg => by cases hg
  | cons live _ _ ihinside ihothers =>
    refine List.forall_mem_cons.mpr ⟨⟨_, live⟩, fun g hg => ?_⟩
    exact (List.mem_append.mp hg).elim (ihinside g) (ihothers g)

/-- The states at the top of a grove are in it. -/
theorem tops_subset (h : σ.Grove tops below) : tops ⊆ below := by
  induction h with
  | nil => exact fun _ hg => by cases hg
  | cons _ _ _ _ ih =>
    intro g hg
    rcases List.mem_cons.mp hg with rfl | hg
    · exact List.mem_cons_self
    · exact List.mem_append_right _ (ih hg)

/-- A grove is one where its states have the same branches. -/
theorem congr (h : σ.Grove tops below) (hbranches : ∀ g ∈ below,
    (σ'.get? g).map State.branches = (σ.get? g).map State.branches) : σ'.Grove tops below := by
  induction h with
  | nil => exact .nil
  | @cons h state rest inner outer live _ _ ihinside ihothers =>
    have hstate := hbranches h List.mem_cons_self
    rw [live, Option.map_some, Option.map_eq_some_iff] at hstate
    obtain ⟨state', hstate', hsame⟩ := hstate
    refine .cons hstate' ?_ (ihothers fun g hg => hbranches g (List.mem_append_right _ hg))
    rw [hsame]
    exact ihinside fun g hg => hbranches g (List.mem_append_left _ (List.mem_cons_of_mem _ hg))

/-- States have one grove. -/
theorem unique (h : σ.Grove tops below) (h' : σ.Grove tops below') : below = below' := by
  induction h generalizing below' with
  | nil =>
    cases h'
    rfl
  | cons live _ _ ihinside ihothers =>
    cases h' with
    | cons live' inside' others' =>
      cases live.symm.trans live'
      rw [ihinside inside', ihothers others']

/-- Two groves side by side. -/
theorem append (h : σ.Grove tops below) (h' : σ.Grove tops' below') :
    σ.Grove (tops ++ tops') (below ++ below') := by
  induction h with
  | nil => exact h'
  | cons live inside _ _ ih =>
    rw [List.append_assoc]
    exact .cons live inside ih

/-- A grove of states on the left and others on the right. -/
theorem of_append (h : σ.Grove (tops ++ tops') below) : ∃ left right, below = left ++ right ∧
    σ.Grove tops left ∧ σ.Grove tops' right := by
  induction tops generalizing below with
  | nil => exact ⟨[], below, rfl, .nil, h⟩
  | cons top tops ih =>
    cases h with
    | cons live inside others =>
      obtain ⟨left, right, rfl, hleft, hright⟩ := ih others
      exact ⟨_, right, (List.append_assoc _ _ _).symm, .cons live inside hleft, hright⟩

/-- The states at the top may be taken in another order. -/
theorem perm (h : σ.Grove tops below) (hperm : tops.Perm tops') :
    ∃ below', σ.Grove tops' below' ∧ below.Perm below' := by
  induction hperm generalizing below with
  | nil => exact ⟨below, h, .refl _⟩
  | cons top _ ih =>
    cases h with
    | cons live inside others =>
      obtain ⟨outer, houter, hperm⟩ := ih others
      exact ⟨_, .cons live inside houter, hperm.append_left _⟩
  | swap top top' tops =>
    have h : σ.Grove ([top'] ++ ([top] ++ tops)) below := h
    obtain ⟨first, rest, rfl, hfirst, hrest⟩ := h.of_append
    obtain ⟨second, right, rfl, hsecond, hright⟩ := hrest.of_append
    refine ⟨_, (hsecond.append hfirst).append hright, ?_⟩
    rw [← List.append_assoc]
    exact List.perm_append_comm.append_right _
  | trans _ _ ih ih' =>
    obtain ⟨_, hmiddle, hperm⟩ := ih h
    obtain ⟨below', hlast, hperm'⟩ := ih' hmiddle
    exact ⟨below', hlast, hperm.trans hperm'⟩

/-- A grove of different states has no more than there are. -/
theorem length_le (h : σ.Grove tops below) (hnodup : below.Nodup) :
    below.length ≤ σ.arena.occupied := by
  rw [← Arena.length_handles_eq_occupied]
  exact (List.subperm_of_subset hnodup fun g hg => Arena.mem_handles.mpr (h.live g hg)).length_le

/-- What is left after others have gone is a grove still. -/
theorem of_fells {gone : List Handle} (h : σ.Grove tops below) (hfells : σ.Fells σ' gone)
    (hapart : ∀ g ∈ below, g ∉ gone) : σ'.Grove tops below :=
  h.congr fun g hg => by rw [hfells, if_neg (hapart g hg)]

end Grove

/-- A recursion of so many generations removes every state with a grove of no more states below
it, and the grove with it. -/
def Felling (generations : Nat) : Prop :=
  ∀ (σ : Store) (h : Handle) (below : List Handle), σ.Grove [h] below → below.Nodup →
    below.length ≤ generations →
    ∃ σ', destroyWithin generations h σ = .ok σ' ∧ σ.Fells σ' below

/-- The states at the top of a grove can be removed one after the other. -/
theorem Grove.removing {generations : Nat} (hfelling : Felling generations)
    {tops below : List Handle} (hgrove : σ.Grove tops below) (hnodup : below.Nodup)
    (hle : below.length ≤ generations) :
    Removing (destroyWithin generations) tops fun done σ' =>
      ∀ gone, σ.Grove done gone → σ.Fells σ' gone where
  step := by
    rintro done d rest σ' rfl hdone
    obtain ⟨left, right, rfl, hleft, hright⟩ := hgrove.of_append
    have hright : σ.Grove ([d] ++ rest) right := hright
    obtain ⟨middle, last, rfl, hmiddle, -⟩ := hright.of_append
    obtain ⟨-, hnodup, hapart⟩ := List.nodup_append.mp hnodup
    have hsmall : middle.length ≤ generations := by
      simp only [List.length_append] at hle
      omega
    have hstill := hmiddle.of_fells (hdone left hleft) fun g hg hgone =>
      hapart g hgone g (List.mem_append_left _ hg) rfl
    obtain ⟨σ'', hdestroy, hfells⟩ :=
      hfelling σ' d middle hstill (List.nodup_append.mp hnodup).1 hsmall
    refine ⟨σ'', hdestroy, fun gone hgone => ?_⟩
    rw [hgone.unique (hleft.append hmiddle)]
    exact (hdone left hleft).append hfells
  announce := fun _ _ _ hdone gone hgone => hdone gone hgone

/-- A state with a grove below it can be removed and the grove with it. -/
theorem felling (generations : Nat) : Felling generations := by
  -- By induction on the bound: below the state there are fewer states.
  induction generations with
  | zero =>
    intro σ h below hgrove hnodup hle
    have hempty := List.length_eq_zero_iff.mp (Nat.le_zero.mp hle)
    exact absurd (hgrove.tops_subset List.mem_cons_self) (by simp [hempty])
  | succ generations ih =>
    intro σ h below hgrove hnodup hle
    cases hgrove with
    | @cons _ state _ inner _ hstate inside others =>
    cases others with
    | nil =>
    rw [List.append_nil] at hnodup hle ⊢
    obtain ⟨hfresh, hnodup⟩ := List.nodup_cons.mp hnodup
    have hget : ∀ g, (σ.modify h fun state => { state with inners := [] }).get? g =
        if g = h then some { state with inners := [] } else σ.get? g := fun g => by
      rw [get?_modify, hstate, Option.map_some]
    generalize hσ₁ : (σ.modify h fun state => { state with inners := [] }) = σ₁ at hget
    have hinner : σ₁.Grove (state.branches.flatMap fun entry => entry.2.children) inner :=
      inside.congr fun g hg => by rw [hget, if_neg (ne_of_mem_of_not_mem hg hfresh)]
    have hremoving := hinner.removing ih hnodup (Nat.le_of_succ_le_succ hle)
    obtain ⟨σ₂, hrelease, hσ₂⟩ := hremoving.inners (σ := σ₁) fun gone hgone => by
      rw [hgone.unique .nil]
      exact .nil σ₁
    have hfells := hσ₂ inner hinner
    have hlast : σ₂.get? h = some { state with inners := [] } := by
      rw [hfells, if_neg hfresh, hget, if_pos rfl]
    obtain ⟨arena, hremove⟩ : ∃ arena,
        σ₂.arena.remove h = some ({ state with inners := [] }, arena) :=
      ⟨_, Arena.remove_eq_some.mpr ⟨hlast, rfl⟩⟩
    refine ⟨(({ σ₂ with arena } : Store).dismiss state.place h).announce
      (.stateDestroyed state.place h), ?_, ?_⟩
    · rw [← hσ₁] at hrelease
      exact destroyWithin_succ_eq_ok.mpr ⟨state, σ₂, _, arena, hstate, hrelease, hremove, rfl⟩
    · intro g
      rw [get?_announce, hfells.append (Fells.take hremove) g, hget]
      by_cases hg : g = h <;> by_cases hg' : g ∈ inner <;> simp [hg, hg']

/-- States with a grove below them can be removed one after the other and the grove with them. -/
theorem destroyAll_fells {order below : List Handle} (hgrove : σ.Grove order below)
    (hnodup : below.Nodup) : ∃ σ', σ.destroyAll order = .ok σ' ∧ σ.Fells σ' below := by
  induction order generalizing σ below with
  | nil =>
    cases hgrove
    exact ⟨σ, rfl, .nil σ⟩
  | cons h rest ih =>
    have hgrove : σ.Grove ([h] ++ rest) below := hgrove
    obtain ⟨first, others, rfl, hfirst, hothers⟩ := hgrove.of_append
    obtain ⟨hnodup₁, hnodup, hapart⟩ := List.nodup_append.mp hnodup
    obtain ⟨σ₁, hdestroy, hfells⟩ := felling σ.generations σ h first hfirst hnodup₁
      ((hfirst.length_le hnodup₁).trans σ.occupied_lt_generations.le)
    have hstill := hothers.of_fells hfells fun g hg hgone => hapart g hgone g hg rfl
    obtain ⟨σ', hrest, hfells'⟩ := ih hstill hnodup
    refine ⟨σ', ?_, hfells.append hfells'⟩
    rw [destroyAll, List.foldlM_cons, destroy, hdestroy, ok_bind]
    exact hrest

/-- A removed state is gone. -/
theorem not_live_of_destroy (hdestroy : σ.destroy h = .ok σ') : ¬ σ'.Live h := by
  obtain ⟨state, -, hdestroy⟩ := bind_eq_ok.mp hdestroy
  obtain ⟨σ₁, -, hdestroy⟩ := bind_eq_ok.mp hdestroy
  split at hdestroy
  · cases hdestroy
  · rename_i last arena hremove
    cases hdestroy
    rw [not_live, get?_announce, Fells.take hremove]
    exact if_pos List.mem_cons_self

/-- Removed states are gone, and their places. -/
theorem delists_of_destroyAll {order : List Handle} (hfaithful : σ.Faithful)
    (hdestroy : σ.destroyAll order = .ok σ') :
    σ.Delists σ' ∧ ∀ child ∈ order, ¬ σ'.Live child := by
  refine ⟨(stepwise_delists.destroyAll hdestroy hfaithful).1, ?_⟩
  induction order generalizing σ with
  | nil => exact nofun
  | cons child rest ih =>
    obtain ⟨σ₁, hfirst, hrest⟩ := bind_eq_ok.mp hdestroy
    have hσ₁ := (stepwise_delists.destroyWithin _ _ _ _ hfirst hfaithful).2
    have hdelists := (stepwise_delists.destroyAll hrest hσ₁).1
    refine List.forall_mem_cons.mpr ⟨fun hlive => ?_, ih hσ₁ hrest⟩
    exact not_live_of_destroy hfirst (hdelists.live hlive)

/-! ## Dropped children -/

/-- The children that a rearranged branch has no more. -/
def dropped (old new : Branch) : List Handle :=
  old.children.filter fun child => child ∉ new.children

/-- The children of a branch and the states below them are different states. -/
structure Planted (σ : Store) (owner : Handle) (old new : Branch) (below : List Handle) :
    Prop where
  grove : σ.Grove old.children below
  distinct : below.Nodup
  /-- What has the branch is not below its children. -/
  owner : owner ∉ below
  /-- What comes new into the branch is not below its children. -/
  fresh : ∀ child ∈ new.children, child ∈ below → child ∈ old.children

/-- A rearranged branch keeps what is below its children. -/
theorem Planted.rearranged {below : List Handle} (h : σ.Planted owner old new below)
    (hshifts : (σ.setBranch owner name new).Shifts σ' owner name new) :
    σ'.Grove old.children below := by
  refine h.grove.congr fun g hg => ?_
  have hset : (σ.setBranch owner name new).get? g = σ.get? g := by
    rw [get?_setBranch, if_neg (ne_of_mem_of_not_mem hg h.owner)]
  rw [hshifts.branches, hset]

/-- The dropped children go in any order, with states that were below the children of the branch and
none that the branch has now. -/
theorem Planted.destroyAll {below order : List Handle} (h : σ.Planted owner old new below)
    (hshifts : (σ.setBranch owner name new).Shifts σ' owner name new)
    (horder : order.Perm (dropped old new)) :
    ∃ gone τ, σ'.destroyAll order = .ok τ ∧ σ'.Fells τ gone ∧ gone ⊆ below ∧
      ∀ child ∈ new.children, child ∉ gone := by
  have hsplit : old.children.Perm
      (order ++ old.children.filter fun child => child ∈ new.children) := by
    refine .trans ?_ (horder.symm.append_right _)
    refine .trans (List.filter_append_perm (fun child => child ∈ new.children) _).symm ?_
    refine List.perm_append_comm.trans ?_
    simp [dropped]
  obtain ⟨below', hgrove, hperm⟩ := (h.rearranged hshifts).perm hsplit
  obtain ⟨gone, rest, rfl, hgone, hrest⟩ := hgrove.of_append
  obtain ⟨hnodup, -, hapart⟩ := List.nodup_append.mp (hperm.nodup_iff.mp h.distinct)
  obtain ⟨τ, hdestroy, hfells⟩ := destroyAll_fells hgone hnodup
  have hbelow : gone ⊆ below := fun g hg => hperm.mem_iff.mpr (List.mem_append_left _ hg)
  refine ⟨gone, τ, hdestroy, hfells, hbelow, fun child hchild hmem => ?_⟩
  have hold := h.fresh child hchild (hbelow hmem)
  have hkept := hrest.tops_subset (List.mem_filter.mpr ⟨hold, decide_eq_true hchild⟩)
  exact hapart child hmem child hkept rfl

/-- Whatever children a branch gets, its places can be put right and are right then, and stay so
when the dropped children are removed in any order: the places go that lead to what is removed and
no others. -/
theorem rekeyed_of_rearranges (hfaithful : σ.Faithful) (h : σ.Rearranges owner name old new) :
    ∃ σ', (σ.setBranch owner name new).reindex owner name = .ok σ' ∧
      (σ.setBranch owner name new).Rekeyed σ' owner name new ∧
      (∀ order τ, σ'.destroyAll order = .ok τ →
        σ'.Delists τ ∧ ∀ child ∈ order, ¬ τ.Live child) ∧
      ∀ below order, σ.Planted owner old new below → order.Perm (dropped old new) →
        ∃ τ, σ'.destroyAll order = .ok τ ∧ (∀ g, g ∉ below → τ.get? g = σ'.get? g) ∧
          ∀ slot child, new.childAt? slot = some child →
            τ.stateAt? (.within owner name slot) = some child ∧
              τ.place? child = some (.within owner name slot) := by
  have hlive : σ.Live owner := by
    obtain ⟨state, hstate, -⟩ := Option.bind_eq_some_iff.mp h.held
    exact ⟨state, hstate⟩
  have hfaithful' : (σ.setBranch owner name new).Faithful := fun place g hat =>
    (place?_setBranch owner g name new).trans (hfaithful place g hat)
  obtain ⟨σ', hreindex, hrekeyed⟩ := exists_rekeyed hfaithful'
    (branch?_setBranch hlive name new) h.distinct fun child hchild => by
      simpa only [place?_setBranch] using h.placed child hchild
  refine ⟨σ', hreindex, hrekeyed, fun order τ => delists_of_destroyAll hrekeyed.faithful, ?_⟩
  intro below order hplanted horder
  obtain ⟨gone, τ, hdestroy, hfells, hbelow, hkept⟩ := hplanted.destroyAll hrekeyed.shifts horder
  have hdelists := (delists_of_destroyAll hrekeyed.faithful hdestroy).1
  refine ⟨τ, hdestroy, fun g hg => ?_, fun slot child hslot => ?_⟩
  · rw [hfells, if_neg fun hmem => hg (hbelow hmem)]
  · obtain ⟨hat, hplace⟩ := hrekeyed.agrees slot child hslot
    have hchild := hkept child (Branch.mem_children.mpr ⟨slot, hslot⟩)
    have hplace' : τ.place? child = some (.within owner name slot) := by
      rw [place?, hfells, if_neg hchild]
      exact hplace
    exact ⟨(hdelists.keys _ _).mpr ⟨hat, live_of_place? hplace'⟩, hplace'⟩

/-- Three items under a root, the first of them with something below it, and a state that was made
to be the second item and is not registered yet. -/
def shiftSample : Store where
  arena := ⟨[⟨0, some ⟨.root, .ready, [("items", ⟨⟨0, 0⟩, .list [⟨1, 0⟩, ⟨2, 0⟩, ⟨3, 0⟩]⟩)]⟩⟩,
    ⟨0, some ⟨.within ⟨0, 0⟩ "items" (.list 0), .ready, [("x", ⟨⟨1, 0⟩, .placeholder ⟨4, 0⟩⟩)]⟩⟩,
    ⟨0, some ⟨.within ⟨0, 0⟩ "items" (.list 1), .ready, []⟩⟩,
    ⟨0, some ⟨.within ⟨0, 0⟩ "items" (.list 2), .ready, []⟩⟩,
    ⟨0, some ⟨.within ⟨1, 0⟩ "x" .placeholder, .ready, []⟩⟩,
    ⟨0, some ⟨.within ⟨0, 0⟩ "items" (.list 1), .created, []⟩⟩], [], 6⟩
  register := [(.root, ⟨0, 0⟩), (.within ⟨0, 0⟩ "items" (.list 0), ⟨1, 0⟩),
    (.within ⟨0, 0⟩ "items" (.list 1), ⟨2, 0⟩), (.within ⟨0, 0⟩ "items" (.list 2), ⟨3, 0⟩),
    (.within ⟨1, 0⟩ "x" .placeholder, ⟨4, 0⟩)]
  journal := #[]

/-- The first item goes and the other two change places with the new one between them. When the
first one has been removed its place leads on to the item that has taken it over. -/
theorem rekeyed_shiftSample : ∃ σ' τ,
    (shiftSample.setBranch ⟨0, 0⟩ "items" (.list [⟨3, 0⟩, ⟨5, 0⟩, ⟨2, 0⟩])).reindex ⟨0, 0⟩ "items" =
      .ok σ' ∧ σ'.destroyAll [⟨1, 0⟩] = .ok τ ∧ σ'.Delists τ ∧
    τ.stateAt? (.within ⟨0, 0⟩ "items" (.list 0)) = some ⟨3, 0⟩ ∧
    τ.stateAt? (.within ⟨0, 0⟩ "items" (.list 1)) = some ⟨5, 0⟩ ∧
    τ.stateAt? (.within ⟨0, 0⟩ "items" (.list 2)) = some ⟨2, 0⟩ := by
  have hentries : ∀ entry ∈ shiftSample.register,
      shiftSample.place? entry.2 = some entry.1 := by decide
  have hfaithful : shiftSample.Faithful := fun place h hat =>
    hentries (place, h) (Table.mem_of_get? hat)
  have hrearranges : shiftSample.Rearranges ⟨0, 0⟩ "items" (.list [⟨1, 0⟩, ⟨2, 0⟩, ⟨3, 0⟩])
      (.list [⟨3, 0⟩, ⟨5, 0⟩, ⟨2, 0⟩]) := by
    refine ⟨rfl, by decide, fun child hchild => ?_⟩
    have hcases : child ∈ [⟨3, 0⟩, ⟨5, 0⟩, ⟨2, 0⟩] := hchild
    simp only [List.mem_cons, List.not_mem_nil, or_false] at hcases
    rcases hcases with rfl | rfl | rfl
    · exact ⟨.list 2, rfl⟩
    · exact ⟨.list 1, rfl⟩
    · exact ⟨.list 1, rfl⟩
  have hplanted : shiftSample.Planted ⟨0, 0⟩ (.list [⟨1, 0⟩, ⟨2, 0⟩, ⟨3, 0⟩])
      (.list [⟨3, 0⟩, ⟨5, 0⟩, ⟨2, 0⟩]) [⟨1, 0⟩, ⟨4, 0⟩, ⟨2, 0⟩, ⟨3, 0⟩] := {
    grove := by
      refine @Grove.cons _ _ _ _ [⟨4, 0⟩] [⟨2, 0⟩, ⟨3, 0⟩] rfl ?_ ?_
      · exact @Grove.cons _ _ _ _ [] [] rfl .nil .nil
      · exact @Grove.cons _ _ _ _ [] [⟨3, 0⟩] rfl .nil (@Grove.cons _ _ _ _ [] [] rfl .nil .nil)
    distinct := by decide
    owner := by decide
    fresh := by decide }
  obtain ⟨σ', hreindex, -, hdelists, hdestroys⟩ := rekeyed_of_rearranges hfaithful hrearranges
  obtain ⟨τ, hdestroy, -, hagrees⟩ := hdestroys _ [⟨1, 0⟩] hplanted (.refl _)
  exact ⟨σ', τ, hreindex, hdestroy, (hdelists _ _ hdestroy).1, (hagrees (.list 0) _ rfl).1,
    (hagrees (.list 1) _ rfl).1, (hagrees (.list 2) _ rfl).1⟩

end TreeEditor.Store
