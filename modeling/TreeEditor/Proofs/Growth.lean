import TreeEditor.Proofs.Steps

/-!
# Growing states

The states for a node are made below the state of the node, children in the order of the document.
`Store.Grows` says what growing may do: whatever was live before is left alone, whatever is live
after and was not before stands below the state that grows and has a handle of its own.
`GrowsAs` is what a recursion over a node owes its caller: an open state without children becomes
ready, and the store stands with the state closed. `Grammar.growsAs` proves it for every valid node
by induction over the node.
-/

namespace TreeEditor

namespace Store

variable {σ σ₁ σ₂ : Store} {ν ν₁ ν₂ : Handle → Option Node} {o c g : Handle}

/-- States have been added below a state and nothing else has changed but that state. -/
structure Grows (σ : Store) (ν : Handle → Option Node) (σ' : Store) (ν' : Handle → Option Node)
    (o : Handle) : Prop where
  kept : ∀ g, σ.Live g → g ≠ o → σ'.get? g = σ.get? g
  place : σ'.place? o = σ.place? o
  labels : ∀ g, σ.Live g → ν' g = ν g
  below : ∀ g, σ'.Live g → σ.Live g ∨ σ'.Under o g
  /-- New handles are new in regard of any earlier store. -/
  fresh : ∀ earlier : Arena State, σ.arena.Follows earlier → σ'.arena.Follows earlier ∧
    ∀ g, σ'.Live g → σ.Live g ∨ earlier.get? g = none

namespace Grows

/-- What stood somewhere still stands there. -/
theorem place?_mono (h : σ.Grows ν σ₁ ν₁ o) {place : Place} (hplace : σ.place? g = some place) :
    σ₁.place? g = some place := by
  by_cases hg : g = o
  · rw [hg] at hplace ⊢
    exact h.place.trans hplace
  · rwa [place?, h.kept g (live_of_place? hplace) hg]

/-- What was live stands where it stood. -/
theorem place?_eq (h : σ.Grows ν σ₁ ν₁ o) (hg : σ.Live g) : σ₁.place? g = σ.place? g := by
  obtain ⟨place, hplace⟩ := hg.place?
  rw [h.place?_mono hplace, hplace]

/-- What was live still is. -/
theorem live (h : σ.Grows ν σ₁ ν₁ o) (hg : σ.Live g) : σ₁.Live g := by
  obtain ⟨place, hplace⟩ := hg.place?
  exact live_of_place? (h.place?_mono hplace)

/-- Nothing need be added. -/
theorem refl (σ : Store) (ν : Handle → Option Node) (o : Handle) : σ.Grows ν σ ν o :=
  ⟨fun _ _ _ => rfl, rfl, fun _ _ => rfl, fun _ hg => .inl hg,
    fun _ hearlier => ⟨hearlier, fun _ hg => .inl hg⟩⟩

/-- What is added bit by bit is added. -/
theorem trans (h : σ.Grows ν σ₁ ν₁ o) (h' : σ₁.Grows ν₁ σ₂ ν₂ o) : σ.Grows ν σ₂ ν₂ o where
  kept := fun g hg hne => (h'.kept g (h.live hg) hne).trans (h.kept g hg hne)
  place := h'.place.trans h.place
  labels := fun g hg => (h'.labels g (h.live hg)).trans (h.labels g hg)
  below := fun g hg => by
    rcases h'.below g hg with hg | hunder
    · exact (h.below g hg).imp_right fun hunder => hunder.mono fun _ _ => h'.place?_mono
    · exact .inr hunder
  fresh := fun earlier hearlier => by
    obtain ⟨hearlier₁, hfresh₁⟩ := h.fresh earlier hearlier
    obtain ⟨hearlier₂, hfresh₂⟩ := h'.fresh earlier hearlier₁
    exact ⟨hearlier₂, fun g hg => (hfresh₂ g hg).elim (hfresh₁ g) .inr⟩

/-- Growth puts nothing into the slots of a state that is not below the growing one. -/
theorem stands_iff (h : σ.Grows ν σ₁ ν₁ o) {parent : Handle} (hparent : ¬ σ₁.Under o parent)
    (child : Handle) (name : String) (slot : Slot) :
    σ₁.place? child = some (.within parent name slot) ↔
      σ.place? child = some (.within parent name slot) := by
  refine ⟨fun hplace => ?_, h.place?_mono⟩
  by_cases hchild : child = o
  · rw [hchild] at hplace ⊢
    exact h.place.symm.trans hplace
  · rcases h.below child (live_of_place? hplace) with hlive | hunder
    · rwa [Store.place?, h.kept child hlive hchild] at hplace
    · cases hunder with
      | refl => exact absurd rfl hchild
      | within hplace' up =>
        rw [hplace] at hplace'
        cases hplace'
        exact absurd up hparent

/-- The growing state itself may change, as long as it stays where it is. -/
theorem modify (h : σ.Grows ν σ₁ ν₁ o) {change : State → State}
    (hplace : ∀ state, (change state).place = state.place) :
    σ.Grows ν (σ₁.modify o change) ν₁ o := by
  have hplaces := place?_modify (σ := σ₁) hplace o
  have hlive : ∀ g, (σ₁.modify o change).Live g → σ₁.Live g := fun g hg => by
    obtain ⟨place, hat⟩ := hg.place?
    exact live_of_place? ((hplaces g).symm.trans hat)
  refine ⟨fun g hg hne => ?_, (hplaces o).trans h.place, h.labels, fun g hg => ?_,
    fun earlier hearlier => ?_⟩
  · rw [get?_modify, if_neg hne]
    exact h.kept g hg hne
  · refine (h.below g (hlive g hg)).imp_right fun hunder => hunder.mono fun g place hat => ?_
    exact (hplaces g).trans hat
  · obtain ⟨hearlier, hfresh⟩ := h.fresh earlier hearlier
    exact ⟨hearlier.modify o change, fun g hg => hfresh g (hlive g hg)⟩

/-- The growing state may be moved to a stage. -/
theorem setStage (h : σ.Grows ν σ₁ ν₁ o) (stage : Stage) :
    σ.Grows ν (σ₁.setStage o stage) ν₁ o :=
  h.modify fun _ => by rfl

/-- The growing state may be given a branch. -/
theorem setBranch (h : σ.Grows ν σ₁ ν₁ o) (name : String) (branch : Branch) :
    σ.Grows ν (σ₁.setBranch o name branch) ν₁ o :=
  h.modify fun _ => by rfl

/-- Announcing is no growth. -/
theorem announce (h : σ.Grows ν σ₁ ν₁ o) (event : Event) :
    σ.Grows ν (σ₁.announce event) ν₁ o :=
  ⟨h.kept, h.place, h.labels, fun g hg => (h.below g hg).imp_right
    (Store.under_announce event).mpr, h.fresh⟩

end Grows

/-- Children have been added in the slots of a property of a state, with everything below them, the
state has been changed, and nothing else has changed. -/
structure Plants (σ : Store) (ν : Handle → Option Node) (σ' : Store) (ν' : Handle → Option Node)
    (o : Handle) (change : State → State) (name : String) (held : Slot → Handle → Prop) :
    Prop where
  grows : σ.Grows ν σ' ν' o
  owner : σ'.get? o = (σ.get? o).map change
  stands : ∀ child name' slot, σ'.place? child = some (.within o name' slot) ↔
    σ.place? child = some (.within o name' slot) ∨ name' = name ∧ held slot child
  new : ∀ slot c, held slot c → σ.get? c = none
  below : ∀ g, σ'.Live g → σ.Live g ∨ ∃ slot c, held slot c ∧ σ'.Under c g

namespace Plants

variable {change change' : State → State} {name : String} {held held' : Slot → Handle → Prop}

/-- What is added bit by bit is added. -/
theorem trans (h : σ.Plants ν σ₁ ν₁ o change name held)
    (h' : σ₁.Plants ν₁ σ₂ ν₂ o change' name held') :
    σ.Plants ν σ₂ ν₂ o (change' ∘ change) name fun slot child =>
      held slot child ∨ held' slot child where
  grows := h.grows.trans h'.grows
  owner := by rw [h'.owner, h.owner, Option.map_map]
  stands := fun child name' slot => by
    rw [h'.stands, h.stands, or_assoc, ← and_or_left]
  new := by
    rintro slot c (hc | hc)
    · exact h.new slot c hc
    · rw [← not_live]
      exact fun hlive => not_live.mpr (h'.new slot c hc) (h.grows.live hlive)
  below := fun g hg => by
    rcases h'.below g hg with hg | ⟨slot, c, hc, hunder⟩
    · rcases h.below g hg with hg | ⟨slot, c, hc, hunder⟩
      · exact .inl hg
      · exact .inr ⟨slot, c, .inl hc, hunder.mono fun _ _ => h'.grows.place?_mono⟩
    · exact .inr ⟨slot, c, .inr hc, hunder⟩

/-- The slots may be described otherwise. -/
theorem congr (h : σ.Plants ν σ₁ ν₁ o change name held)
    (hheld : ∀ slot child, held slot child ↔ held' slot child) :
    σ.Plants ν σ₁ ν₁ o change name held' := by
  have heq : held = held' := funext fun slot => funext fun child => propext (hheld slot child)
  exact heq ▸ h

/-- Nothing need be added. -/
theorem refl (σ : Store) (ν : Handle → Option Node) (o : Handle) (name : String)
    (hheld : ∀ slot child, ¬ held slot child) : σ.Plants ν σ ν o id name held :=
  ⟨.refl σ ν o, by rw [Option.map_id]; rfl, fun child name' slot => by simp [hheld],
    fun slot child hchild => absurd hchild (hheld slot child), fun g hg => .inl hg⟩

/-- Announcing before adds nothing. -/
theorem of_announce {event : Event}
    (h : (σ.announce event).Plants ν σ₁ ν₁ o change name held) :
    σ.Plants ν σ₁ ν₁ o change name held :=
  ⟨⟨h.grows.kept, h.grows.place, h.grows.labels, h.grows.below, h.grows.fresh⟩, h.owner,
    h.stands, h.new, h.below⟩

/-- Announcing afterwards adds nothing. -/
theorem announce (h : σ.Plants ν σ₁ ν₁ o change name held) (event : Event) :
    σ.Plants ν (σ₁.announce event) ν₁ o change name held :=
  ⟨h.grows.announce event, h.owner, h.stands, h.new, fun g hg =>
    (h.below g hg).imp_right fun ⟨slot, c, hc, hunder⟩ =>
      ⟨slot, c, hc, (Store.under_announce event).mpr hunder⟩⟩

end Plants

/-- A state holds nothing and nothing stands in a slot of it. -/
structure Bare (σ : Store) (o : Handle) : Prop where
  state : ∃ state, σ.get? o = some state ∧ state.branches = []
  leaf : ∀ child name slot, σ.place? child ≠ some (.within o name slot)

/-- A state has been made for a place, with a label of its own, and nothing else has changed. -/
structure Makes (σ : Store) (ν : Handle → Option Node) (σ' : Store) (ν' : Handle → Option Node)
    (c : Handle) (place : Place) : Prop where
  new : σ.get? c = none
  get? : ∀ g, σ'.get? g = if g = c then some ⟨place, .created, []⟩ else σ.get? g
  labels : ∀ g, g ≠ c → ν' g = ν g
  fresh : ∀ earlier : Arena State, σ.arena.Follows earlier → σ'.arena.Follows earlier ∧
    earlier.get? c = none

namespace Makes

variable {place : Place}

/-- The new state stands at its place, the others where they stood. -/
theorem place? (h : σ.Makes ν σ₁ ν₁ c place) (g : Handle) :
    σ₁.place? g = if g = c then some place else σ.place? g := by
  unfold Store.place?
  rw [h.get?]
  split <;> rfl

/-- What was live is another state. -/
theorem ne (h : σ.Makes ν σ₁ ν₁ c place) (hg : σ.Live g) : g ≠ c := by
  rintro rfl
  exact not_live.mpr h.new hg

/-- In the slots of a state stands what stood there, and the new state in its slot. -/
theorem stands_iff {name : String} {slot : Slot} (h : σ.Makes ν σ₁ ν₁ c (.within o name slot))
    (child : Handle) (other : String) (slot' : Slot) :
    σ₁.place? child = some (.within o other slot') ↔
      (child = c ∧ other = name ∧ slot' = slot) ∨
        σ.place? child = some (.within o other slot') := by
  rw [h.place?]
  by_cases hchild : child = c
  · have hnew : σ.place? c ≠ some (.within o other slot') := fun hplace =>
      not_live.mpr h.new (live_of_place? hplace)
    simp [hchild, hnew, eq_comm]
  · simp [hchild]

/-- What stood somewhere still stands there. -/
theorem place?_mono (h : σ.Makes ν σ₁ ν₁ c place) {place' : Place}
    (hplace : σ.place? g = some place') : σ₁.place? g = some place' := by
  rw [h.place?, if_neg (h.ne (live_of_place? hplace)), hplace]

/-- Live are what was live and the new state. -/
theorem live (h : σ.Makes ν σ₁ ν₁ c place) (hg : σ₁.Live g) : g = c ∨ σ.Live g := by
  obtain ⟨state, hstate⟩ := hg
  rw [h.get?] at hstate
  split at hstate
  · exact .inl ‹_›
  · exact .inr ⟨state, hstate⟩

/-- A state that has been made, and grown while the state that it stands under was changed, is a
child added there. -/
theorem plants {change : State → State} {name : String} {slot : Slot} {path : Path}
    (h : σ.Makes ν σ₁ ν₁ c (.within o name slot)) (hlive : σ.Live o)
    (hchange : ∀ state, (change state).place = state.place)
    (hgrows : (σ₁.modify o change).Grows ν₁ σ₂ ν₂ c) (hclimbs : σ₂.Climbs c path) :
    σ.Plants ν σ₂ ν₂ o change name fun slot' child => slot' = slot ∧ child = c := by
  have hplaces : ∀ g, (σ₁.modify o change).place? g = σ₁.place? g := place?_modify hchange o
  have hplace : σ₂.place? c = some (.within o name slot) := by
    rw [hgrows.place, hplaces, h.place?, if_pos rfl]
  have hlive₁ : ∀ g, σ.Live g → (σ₁.modify o change).Live g := fun g hg => by
    obtain ⟨place, hat⟩ := hg.place?
    exact live_of_place? ((hplaces g).trans (h.place?_mono hat))
  -- Making and growing are seen from the store before both: live is what was live, or the new
  -- state.
  have hearlier : ∀ g, (σ₁.modify o change).Live g → g = c ∨ σ.Live g := fun g hg =>
    h.live ((live_modify o g change).mp hg)
  have hstay : ∀ g, σ.Live g → σ₂.place? g = σ.place? g := fun g hg => by
    rw [hgrows.place?_eq (hlive₁ g hg), hplaces, h.place?, if_neg (h.ne hg)]
  have hbelow : ∀ g, σ₂.Live g → σ.Live g ∨ σ₂.Under c g := fun g hg => by
    rcases hgrows.below g hg with hg | hunder
    · exact (hearlier g hg).elim (fun heq => .inr (heq ▸ .refl)) .inl
    · exact .inr hunder
  have hgrows' : σ.Grows ν σ₂ ν₂ o := {
    kept := fun g hg hne => by
      rw [hgrows.kept g (hlive₁ g hg) (h.ne hg), get?_modify, if_neg hne, h.get?, if_neg (h.ne hg)]
    place := hstay o hlive
    labels := fun g hg => (hgrows.labels g (hlive₁ g hg)).trans (h.labels g (h.ne hg))
    below := fun g hg => (hbelow g hg).imp_right (Under.trans (.within hplace .refl))
    fresh := fun earlier hfollows => by
      obtain ⟨hfollows₁, hc⟩ := h.fresh earlier hfollows
      obtain ⟨hfollows₂, hfresh⟩ := hgrows.fresh earlier (hfollows₁.modify o change)
      refine ⟨hfollows₂, fun g hg => ?_⟩
      rcases hfresh g hg with hg | hg
      · exact (hearlier g hg).elim (fun heq => .inr (heq ▸ hc)) .inl
      · exact .inr hg }
  refine ⟨hgrows', ?_, fun child name' slot' => ⟨fun hchild => ?_, ?_⟩, ?_,
    fun g hg => (hbelow g hg).imp_right fun hunder => ⟨slot, c, ⟨rfl, rfl⟩, hunder⟩⟩
  · rw [hgrows.kept o (hlive₁ o hlive) (h.ne hlive), get?_modify, if_pos rfl, h.get?,
      if_neg (h.ne hlive)]
  · rcases hbelow child (live_of_place? hchild) with hg | hunder
    · exact .inl ((hstay child hg).symm.trans hchild)
    · obtain rfl := eq_of_under hclimbs hplace hchild hunder
      rw [hplace] at hchild
      cases hchild
      exact .inr ⟨rfl, rfl, rfl⟩
  · rintro (hchild | ⟨rfl, rfl, rfl⟩)
    · exact hgrows'.place?_mono hchild
    · exact hplace
  · rintro slot' _ ⟨-, rfl⟩
    exact h.new

end Makes

end Store

/-- Growing a bare open state for a node makes it a state that stands for the node, once it is
ready. -/
def GrowsAs (grammar : Grammar) (root : Handle) (node : Node) (grow : Growth) : Prop :=
  ∀ σ ν H U o, Standing grammar root σ ν (insert o H) U → σ.Bare o → ν o = some node →
    ∃ σ' ν', grow o σ = .ok σ' ∧ Standing grammar root (σ'.setStage o .ready) ν' H U ∧
      σ.Grows ν σ' ν' o

namespace Standing

variable {grammar : Grammar} {root h o : Handle} {σ : Store} {ν : Handle → Option Node}
  {H U : Set Handle} {name : String}

/-- A bare open state can be settled. -/
theorem settle (hσ : Standing grammar root σ ν (insert h H) U) (hbare : σ.Bare h)
    {growth : Option Growth} (hgrowth : Option.Rel (GrowsAs grammar root) (ν h) growth)
    (place : Place) : ∃ σ' ν', σ.settle place h growth = .ok σ' ∧
      Standing grammar root σ' ν' H U ∧ σ.Grows ν σ' ν' h := by
  have hσ₁ := hσ.announce (.stateCreated place h)
  have hgrows : σ.Grows ν (σ.announce (.stateCreated place h)) ν h :=
    (Store.Grows.refl σ ν h).announce _
  cases growth with
  | none =>
    cases hitem : ν h with
    | some node => rw [hitem] at hgrowth; cases hgrowth
    | none =>
      obtain ⟨state, hstate, hbranches⟩ := hbare.state
      have hget : ((σ.announce (.stateCreated place h)).setStage h .vacant).get? h =
          some { state with stage := .vacant } := by
        rw [Store.get?_setStage, if_pos rfl, Store.get?_announce, hstate]
        rfl
      have hσ₂ := hσ₁.setStage (Set.mem_insert h H) .vacant
      refine ⟨_, ν, ?_, (hσ₂.close ?_ ?_).announce (.stateSettled place h),
        (hgrows.setStage .vacant).announce _⟩
      · have hlive : (σ.announce (.stateCreated place h)).Live h :=
          ⟨state, (Store.get?_announce ..).trans hstate⟩
        rw [Store.settle, Store.fill, Store.enter_of_live hlive]
        rfl
      · intro g hg _ hclosed name slot child
        obtain rfl := hg.resolve_right hclosed
        rw [Store.place?_setStage, Store.branch?, hget, Option.bind_some, State.branches_stage,
          hbranches]
        refine ⟨fun hchild => absurd hchild (hbare.leaf child name slot), ?_⟩
        rintro ⟨branch, hbranch, -⟩
        cases hbranch
      · intro g hg state' hstate' hclosed
        obtain rfl := hg.resolve_right hclosed
        rw [hget] at hstate'
        cases hstate'
        rw [hitem]
        exact .vacant rfl hbranches
  | some grow =>
    obtain ⟨node, hnode, hgrow⟩ := rel_some_right.mp hgrowth
    obtain ⟨σ', ν', hσ', hstanding, hgrows'⟩ := hgrow _ _ _ _ _ hσ₁
      ⟨hbare.state, hbare.leaf⟩ hnode
    refine ⟨_, ν', ?_, hstanding.announce (.stateSettled place h),
      ((hgrows.trans hgrows').setStage .ready).announce _⟩
    obtain ⟨state, hstate, -⟩ := hbare.state
    rw [Store.settle, Store.fill, hσ', ok_bind,
      Store.enter_of_live ((hgrows.trans hgrows').live ⟨state, hstate⟩)]
    rfl

/-- A state can be made for a slot of an open state, with any label. -/
theorem make (hσ : Standing grammar root σ ν H U) (hopen : o ∈ H) (hlive : σ.Live o)
    (name : String) (slot : Slot) (item : Option Node) :
    ∃ c σ' ν', σ.allocate (.within o name slot) = (c, σ') ∧
      Standing grammar root σ' ν' (insert c H) (insert c U) ∧
      σ.Makes ν σ' ν' c (.within o name slot) ∧ σ'.Bare c ∧ ν' c = item := by
  have hfresh : ∀ earlier : Arena State, σ.arena.Follows earlier →
      (σ.allocate (.within o name slot)).2.arena.Follows earlier ∧
        earlier.get? (σ.allocate (.within o name slot)).1 = none := fun earlier hearlier =>
    ⟨hearlier.insert _, hearlier.get?_insert_handle hσ.arena _⟩
  cases hmade : σ.allocate (.within o name slot) with | mk c σ' =>
  rw [hmade] at hfresh
  have hσ' := hσ.allocate hmade hlive hopen
  have hnew := Store.get?_handle_of_allocate hσ.arena hmade
  have hget := Store.get?_of_allocate hσ.arena hmade
  have hmakes : σ.Makes ν σ' (Function.update ν c item) c (.within o name slot) :=
    ⟨hnew, hget, fun g hg => Function.update_of_ne hg _ _, hfresh⟩
  have hne : o ≠ c := hmakes.ne hlive
  refine ⟨c, σ', Function.update ν c item, rfl, hσ'.relabel fun h hlive' hclosed => ?_, hmakes,
    ⟨⟨_, by rw [hget, if_pos rfl], rfl⟩, fun child name' slot' hchild => ?_⟩,
    Function.update_self c item ν⟩
  · have hh : h ≠ c := fun heq => hclosed (heq ▸ Set.mem_insert c H)
    refine ⟨Function.update_of_ne hh _ _, fun name' slot' child hchild => ?_⟩
    refine Function.update_of_ne (fun heq => hclosed ?_) _ _
    rw [heq, hmakes.place?, if_pos rfl] at hchild
    cases hchild
    exact Set.mem_insert_of_mem c hopen
  · rw [hmakes.place?] at hchild
    split at hchild
    · cases hchild
      exact hne rfl
    · exact Store.not_live.mpr hnew (hσ.parent_live hchild)

/-- A bare open state that is not on the register can be registered and settled, if nothing else
stands at its place. -/
theorem install (hσ : Standing grammar root σ ν (insert h H) (insert h U)) (hbare : σ.Bare h)
    {place : Place} (hplace : σ.place? h = some place)
    (hfree : ∀ g, σ.place? g = some place → g = h) {growth : Option Growth}
    (hgrowth : Option.Rel (GrowsAs grammar root) (ν h) growth) :
    ∃ σ' ν', (σ.enroll place h).settle place h growth = .ok σ' ∧
      Standing grammar root σ' ν' H U ∧ σ.Grows ν σ' ν' h := by
  have hσ₁ : Standing grammar root (σ.enroll place h) ν (insert h H) U :=
    hσ.enroll hplace (fun g hg => hg) fun g hg => .inl (hfree g hg)
  obtain ⟨σ', ν', hsettle, hσ', hgrows⟩ := hσ₁.settle ⟨hbare.state, hbare.leaf⟩ hgrowth place
  exact ⟨σ', ν', hsettle, hσ', hgrows.kept, hgrows.place, hgrows.labels, hgrows.below,
    hgrows.fresh⟩

/-- A child can be made, registered and settled in a slot where nothing stands, while the state that
it stands under is changed. -/
theorem plant (hσ : Standing grammar root σ ν H U) (hopen : o ∈ H) (hlive : σ.Live o)
    {slot : Slot} (hfree : ∀ g, σ.place? g ≠ some (.within o name slot)) {item : Option Node}
    {growth : Option Growth} (hgrowth : Option.Rel (GrowsAs grammar root) item growth)
    (change : Handle → State → State) (hchange : ∀ c state, (change c state).place = state.place)
    (howned : ∀ c state, state.OwnedBy o → (change c state).OwnedBy o) :
    ∃ c σ₁ σ' ν', σ.allocate (.within o name slot) = (c, σ₁) ∧
      ((σ₁.modify o (change c)).enroll (.within o name slot) c).settle (.within o name slot) c
        growth = .ok σ' ∧
      Standing grammar root σ' ν' H U ∧ ν' c = item ∧
      σ.Plants ν σ' ν' o (change c) name fun slot' child => slot' = slot ∧ child = c := by
  obtain ⟨c, σ₁, ν₁, hmade, hσ₁, hmakes, hbare, hlabel⟩ := hσ.make hopen hlive name slot item
  have hne : o ≠ c := hmakes.ne hlive
  have hσ₂ := hσ₁.modify (Set.mem_insert_of_mem c hopen) (hchange c) (howned c)
  have hplaces : ∀ g, (σ₁.modify o (change c)).place? g = σ₁.place? g :=
    Store.place?_modify (hchange c) o
  have hplace : σ₁.place? c = some (.within o name slot) := by rw [hmakes.place?, if_pos rfl]
  obtain ⟨σ', ν', hsettle, hσ', hgrows⟩ := hσ₂.install
    ⟨by rw [Store.get?_modify, if_neg (Ne.symm hne)]; exact hbare.state,
      fun child name' slot' => by rw [hplaces]; exact hbare.leaf child name' slot'⟩
    ((hplaces c).trans hplace) (fun g hg => by
      rw [hplaces, hmakes.place?] at hg
      split at hg
      · assumption
      · exact absurd hg (hfree g)) (hlabel.symm ▸ hgrowth)
  have hplace' : σ'.place? c = some (.within o name slot) :=
    hgrows.place.trans ((hplaces c).trans hplace)
  obtain ⟨path, hclimbs⟩ := hσ'.rooted c (Store.live_of_place? hplace')
  refine ⟨c, σ₁, σ', ν', hmade, hsettle, hσ', ?_,
    hmakes.plants hlive (hchange c) hgrows hclimbs⟩
  exact (hgrows.labels c (Store.live_of_place? ((hplaces c).trans hplace))).trans hlabel

/-- A child can be created in a slot where nothing stands. -/
theorem create (hσ : Standing grammar root σ ν H U) (hopen : o ∈ H) (hlive : σ.Live o)
    {slot : Slot} (hfree : ∀ g, σ.place? g ≠ some (.within o name slot)) {item : Option Node}
    {growth : Option Growth} (hgrowth : Option.Rel (GrowsAs grammar root) item growth) :
    ∃ c σ' ν', σ.create (.within o name slot) growth = .ok (c, σ') ∧
      Standing grammar root σ' ν' H U ∧ ν' c = item ∧
      σ.Plants ν σ' ν' o id name fun slot' child => slot' = slot ∧ child = c := by
  obtain ⟨c, σ₁, σ', ν', hmade, hsettle, hσ', hlabel, hplants⟩ :=
    hσ.plant hopen hlive hfree hgrowth (fun _ => id) (fun _ _ => rfl) fun _ _ => id
  refine ⟨c, σ', ν', ?_, hσ', hlabel, hplants⟩
  rw [Store.modify_id] at hsettle
  unfold Store.create
  rw [hmade]
  dsimp only
  rw [hsettle]
  rfl

/-- Of the children in slots that follow each other the first one stands in the first slot. -/
theorem exists_slot_cons (slotAt : Nat → Slot) (position : Nat) {handles : List Handle}
    {slot : Slot} {child : Handle} :
    ((slot = slotAt position ∧ child = c) ∨
        ∃ i, slot = slotAt (position + 1 + i) ∧ handles[i]? = some child) ↔
      ∃ i, slot = slotAt (position + i) ∧ (c :: handles)[i]? = some child := by
  constructor
  · rintro (⟨rfl, rfl⟩ | ⟨i, rfl, hi⟩)
    · exact ⟨0, rfl, rfl⟩
    · exact ⟨i + 1, by rw [Nat.add_right_comm, Nat.add_assoc], hi⟩
  · rintro ⟨i, rfl, hi⟩
    cases i with
    | zero => exact .inl ⟨rfl, (Option.some.inj hi).symm⟩
    | succ i => exact .inr ⟨i, by rw [Nat.add_right_comm, Nat.add_assoc], hi⟩

/-- Children can be created in slots that follow each other. -/
theorem createAll (hσ : Standing grammar root σ ν H U) (hopen : o ∈ H) (hlive : σ.Live o)
    (slotAt : Nat → Slot) (hslotAt : Function.Injective slotAt) (entries : List (Node × Growth))
    (hgrowth : ∀ entry ∈ entries, GrowsAs grammar root entry.1 entry.2) (position : Nat)
    (hfree : ∀ g i, position ≤ i → σ.place? g ≠ some (.within o name (slotAt i))) :
    ∃ handles σ' ν', σ.createAll ((entries.zipIdx position).map fun entry =>
        (Place.within o name (slotAt entry.2), entry.1.2)) = .ok (handles, σ') ∧
      Standing grammar root σ' ν' H U ∧
      List.Forall₂ (fun entry handle => Labels ν' entry.1 handle) entries handles ∧
      σ.Plants ν σ' ν' o id name fun slot child =>
        ∃ i, slot = slotAt (position + i) ∧ handles[i]? = some child := by
  -- By induction on the entries: the first child takes the first slot and leaves the others free.
  induction entries generalizing σ ν position with
  | nil =>
    exact ⟨[], σ, ν, rfl, hσ, .nil, .refl σ ν o name (by simp)⟩
  | cons entry rest ih =>
    obtain ⟨c, σ₁, ν₁, hcreate, hσ₁, hlabel, hplants₁⟩ := hσ.create hopen hlive
      (fun g => hfree g position le_rfl) (.some (hgrowth entry List.mem_cons_self))
    obtain ⟨handles, σ₂, ν₂, hrest, hσ₂, hlabels, hplants₂⟩ := ih hσ₁
      (hplants₁.grows.live hlive)
      (fun entry hentry => hgrowth entry (List.mem_cons_of_mem _ hentry))
      (position + 1) fun g i hi hat => by
        rcases (hplants₁.stands g name (slotAt i)).mp hat with hat | ⟨-, heq, -⟩
        · exact hfree g i (by omega) hat
        · have := hslotAt heq
          omega
    have hc : σ₁.Live c := Store.live_of_place?
      ((hplants₁.stands c name (slotAt position)).mpr (.inr ⟨rfl, rfl, rfl⟩))
    refine ⟨c :: handles, σ₂, ν₂, ?_, hσ₂,
      .cons ((hplants₂.grows.labels c hc).trans hlabel) hlabels,
      (hplants₁.trans hplants₂).congr fun _ _ => exists_slot_cons slotAt position⟩
    rw [List.zipIdx_cons, List.map_cons, Store.createAll, hcreate, ok_bind]
    dsimp only
    rw [hrest]
    rfl

/-- The members of blocks can be created. -/
theorem createBlocks (hσ : Standing grammar root σ ν H U) (hopen : o ∈ H) (hlive : σ.Live o)
    (blocks : List (Block (Node × Growth) (Node × Growth)))
    (hgrowth : ∀ content ∈ blocks, ∀ entry ∈ content.members,
      GrowsAs grammar root entry.1 entry.2) (position : Nat)
    (hfree : ∀ g i j, position ≤ i → σ.place? g ≠ some (.within o name (.member i j))) :
    ∃ states σ' ν', σ.createBlocks o name position blocks = .ok (states, σ') ∧
      Standing grammar root σ' ν' H U ∧
      List.Forall₂ (Block.Corresponds (fun header header' => header.map Prod.fst = header')
        fun entry handle => Labels ν' entry.1 handle) blocks states ∧
      σ.Plants ν σ' ν' o id name fun slot child => ∃ i j, slot = .member (position + i) j ∧
        (states[i]?.bind fun content => content.members[j]?) = some child := by
  -- By induction on the blocks: the members of one block leave the slots of the later ones free.
  induction blocks generalizing σ ν position with
  | nil =>
    exact ⟨[], σ, ν, rfl, hσ, .nil, .refl σ ν o name (by simp)⟩
  | cons content rest ih =>
    obtain ⟨members, σ₁, ν₁, hmembers, hσ₁, hlabels₁, hplants₁⟩ :=
      (hσ.announce (.blockCreated ⟨o, name⟩ position)).createAll hopen hlive
        (.member position) (fun _ _ heq => (Slot.member.inj heq).2) content.members
        (hgrowth content List.mem_cons_self) 0 fun g j _ => hfree g position j le_rfl
    obtain ⟨states, σ₂, ν₂, hrest, hσ₂, hlabels₂, hplants₂⟩ := ih hσ₁
      (hplants₁.grows.live hlive) (fun content hcontent => hgrowth content
        (List.mem_cons_of_mem _ hcontent)) (position + 1) fun g i j hi hat => by
        rcases (hplants₁.stands g name (.member i j)).mp hat with hat | ⟨-, _, heq, -⟩
        · exact hfree g i j (by omega) hat
        · have := (Slot.member.inj heq).1
          omega
    have hheld := hplants₁.of_announce.trans hplants₂
    -- The labels of the earlier members stay when the later blocks are made.
    have hkept : List.Forall₂ (fun entry handle => Labels ν₂ entry.1 handle) content.members
        members := by
      refine (forall₂_attach hlabels₁).imp ?_
      rintro entry handle ⟨-, hmem, hlabel⟩
      obtain ⟨j, hj⟩ := List.mem_iff_getElem?.mp hmem
      have hplace := (hplants₁.stands handle name (.member position j)).mpr
        (.inr ⟨rfl, j, by rw [Nat.zero_add], hj⟩)
      exact (hplants₂.grows.labels handle (Store.live_of_place? hplace)).trans hlabel
    refine ⟨⟨content.header.map Prod.fst, members⟩ :: states, σ₂, ν₂, ?_, hσ₂,
      .cons ⟨rfl, hkept⟩ hlabels₂, hheld.congr fun slot child => ⟨?_, ?_⟩⟩
    · rw [Store.createBlocks]
      dsimp only
      rw [hmembers, ok_bind]
      dsimp only
      rw [hrest]
      rfl
    · rintro (⟨j, rfl, hj⟩ | ⟨i, j, rfl, hij⟩)
      · exact ⟨0, j, by rw [Nat.zero_add, Nat.add_zero], hj⟩
      · exact ⟨i + 1, j, by rw [Nat.add_right_comm, Nat.add_assoc], hij⟩
    · rintro ⟨i, j, rfl, hij⟩
      cases i with
      | zero => exact .inl ⟨j, by rw [Nat.zero_add, Nat.add_zero], hij⟩
      | succ i => exact .inr ⟨i, j, by rw [Nat.add_right_comm, Nat.add_assoc], hij⟩

/-- The branch for a property can be grown. -/
theorem growBranch (hσ : Standing grammar root σ ν H U) (hopen : o ∈ H) (hlive : σ.Live o)
    (name : String) {property : Property (Node × Growth)} (hbears : property.kind.bearsChildren)
    (hgrowth : ∀ slot entry, property.childAt? slot = some entry →
      GrowsAs grammar root entry.1 entry.2)
    (hfree : ∀ g slot, σ.place? g ≠ some (.within o name slot)) :
    ∃ branch σ' ν', σ.growBranch o name property = .ok (σ'.setBranch o name branch) ∧
      Standing grammar root σ' ν' H U ∧ Reflects ν' (property.map Prod.fst) branch ∧
      σ.Plants ν σ' ν' o id name fun slot child => branch.childAt? slot = some child := by
  cases property with
  | value leaf => cases hbears
  | child entry =>
    obtain ⟨c, σ', ν', hcreate, hσ', hlabel, hplants⟩ := hσ.create hopen hlive
      (fun g => hfree g .placeholder) (.some (hgrowth .placeholder entry rfl))
    refine ⟨.placeholder c, σ', ν', ?_, hσ', .placeholder hlabel,
      hplants.congr fun slot child => ?_⟩
    · rw [Store.growBranch, hcreate]
      rfl
    · cases slot <;> simp [Branch.childAt?, eq_comm]
  | optional assigned item =>
    have hrel : Option.Rel (GrowsAs grammar root)
        (if assigned then item.map Prod.fst else none)
        (if assigned then item.map Prod.snd else none) := by
      cases assigned with
      | false => exact .none
      | true =>
        cases item with
        | none => exact .none
        | some entry => exact .some (hgrowth .optional entry rfl)
    obtain ⟨c, σ', ν', hcreate, hσ', hlabel, hplants⟩ := hσ.create hopen hlive
      (fun g => hfree g .optional) hrel
    refine ⟨.optional c, σ', ν', ?_, hσ', .optional hlabel, hplants.congr fun slot child => ?_⟩
    · rw [Store.growBranch]
      dsimp only
      rw [hcreate]
      rfl
    · cases slot <;> simp [Branch.childAt?, eq_comm]
  | list entries =>
    obtain ⟨handles, σ', ν', hcreate, hσ', hlabels, hplants⟩ := hσ.createAll hopen hlive
      .list (fun _ _ heq => Slot.list.inj heq) entries (fun entry hentry => by
        obtain ⟨position, hposition⟩ := List.mem_iff_getElem?.mp hentry
        exact hgrowth (.list position) entry hposition) 0 fun g i _ => hfree g (.list i)
    refine ⟨.list handles, σ', ν', ?_, hσ', .list (List.forall₂_map_left_iff.mpr hlabels),
      hplants.congr fun slot child => ?_⟩
    · rw [Store.growBranch, hcreate]
      rfl
    · cases slot <;> simp [Branch.childAt?]
  | blockList blocks =>
    obtain ⟨states, σ', ν', hcreate, hσ', hlabels, hplants⟩ :=
      (hσ.announce (.blockListCreated ⟨o, name⟩)).createBlocks hopen hlive blocks
        (fun content hcontent entry hentry => by
          obtain ⟨block, hblock⟩ := List.mem_iff_getElem?.mp hcontent
          obtain ⟨position, hposition⟩ := List.mem_iff_getElem?.mp hentry
          refine hgrowth (.member block position) entry ?_
          simp only [Property.childAt?, hblock, Option.bind_some, hposition]) 0
        fun g i j _ => hfree g (.member i j)
    refine ⟨.blockList states, σ', ν', ?_, hσ', .blockList ?_,
      hplants.of_announce.congr fun slot child => ?_⟩
    · rw [Store.growBranch]
      dsimp only
      rw [hcreate]
      rfl
    · refine List.forall₂_map_left_iff.mpr (hlabels.imp fun content state h => ?_)
      exact ⟨h.header, List.forall₂_map_left_iff.mpr h.members⟩
    · cases slot <;> simp [Branch.childAt?]

end Standing

/-- The entries of a table of branches go on matching while states are added. -/
theorem Store.Grows.forall₂_matches {σ σ' : Store} {ν ν' : Handle → Option Node} {o : Handle}
    {found : List (String × Property Node)} {branches : List (String × Branch)}
    (h : σ.Grows ν σ' ν' o) (hmatches : List.Forall₂ (Matches ν) found branches)
    (hchildren : ∀ entry ∈ branches, ∀ slot child, entry.2.childAt? slot = some child →
      σ.Live child) : List.Forall₂ (Matches ν') found branches := by
  refine (forall₂_attach hmatches).imp ?_
  rintro entry held ⟨-, hheld, hname, hreflects⟩
  exact ⟨hname, hreflects.congr fun slot child hchild =>
    h.labels child (hchildren held hheld slot child hchild)⟩

namespace Grammar

variable {grammar : Grammar} {root o : Handle} {σ : Store} {ν : Handle → Option Node}
  {H U : Set Handle} {node : Node}

/-- The branches of a state are grown one after the other. -/
theorem growth_eq {found : List (String × Property Node)}
    (hfound : grammar.branches node = .ok found) (o : Handle) (σ : Store) :
    grammar.growth node o σ = found.foldlM (fun σ entry =>
      σ.growBranch o entry.1 (entry.2.map fun child => (child, grammar.growth child))) σ := by
  cases node with
  | mk kind properties =>
    rw [growth, Node.fold_mk, browse_map_children,
      show grammar.browse kind properties = .ok found from hfound]
    simp only [Except.map, refuseShape_ok, orRefuse_ok, ok_bind, List.foldlM_map]
    rfl

/-- What holds of the growing state while its branches are grown one after the other. -/
structure Growing (grammar : Grammar) (root : Handle) (σ : Store) (ν : Handle → Option Node)
    (H U : Set Handle) (o : Handle) (done : List (String × Property Node)) (σ' : Store) : Prop where
  grown : ∃ ν' state, Standing grammar root σ' ν' H U ∧ σ.Grows ν σ' ν' o ∧
    σ'.get? o = some state ∧ List.Forall₂ (Matches ν') done state.branches ∧ σ'.Linked o

/-- The next branch can be grown. -/
theorem Growing.step {done rest : List (String × Property Node)} {entry : String × Property Node}
    {σ' : Store} (h : Growing grammar root σ ν H U o done σ') (hopen : o ∈ H) (hlive : σ.Live o)
    (hnodup : (Table.keys (done ++ entry :: rest)).Nodup) (hbears : entry.2.kind.bearsChildren)
    (hgrowth : ∀ slot child, entry.2.childAt? slot = some child →
      GrowsAs grammar root child (grammar.growth child)) :
    ∃ σ'', σ'.growBranch o entry.1 (entry.2.map fun child => (child, grammar.growth child)) =
      .ok σ'' ∧ Growing grammar root σ ν H U o (done ++ [entry]) σ'' := by
  obtain ⟨name, P⟩ := entry
  obtain ⟨ν₁, state, hσ₁, hgrows₁, hstate₁, hmatches₁, hlinked₁⟩ := h.grown
  -- The names of the branches are different, so nothing stands under this one yet.
  have hnew : name ∉ Table.keys state.branches := by
    rw [keys_eq_of_matches hmatches₁]
    unfold Table.keys at hnodup ⊢
    rw [List.map_append, List.map_cons] at hnodup
    exact fun hmem => (List.nodup_append.mp hnodup).2.2 name hmem name List.mem_cons_self rfl
  have hbranch₁ : ∀ other, σ'.branch? o other = Table.get? other state.branches := fun other => by
    rw [Store.branch?, hstate₁, Option.bind_some]
  obtain ⟨branch, σ₂, ν₂, hgrow, hσ₂, hreflects, hplants⟩ := hσ₁.growBranch hopen
    (hgrows₁.live hlive) name
    (show (P.map fun child => (child, grammar.growth child)).kind.bearsChildren by
      rwa [Property.kind_map])
    (fun slot entry hentry => by
      rw [Property.childAt?_map] at hentry
      obtain ⟨child, hchild, rfl⟩ := Option.map_eq_some_iff.mp hentry
      exact hgrowth slot child hchild)
    (fun g slot hat => by
      obtain ⟨branch, hbranch, -⟩ := (hlinked₁ name slot g).mp hat
      rw [hbranch₁, Table.get?_eq_none_iff.mpr hnew] at hbranch
      cases hbranch)
  have hstate₂ : (σ₂.setBranch o name branch).get? o =
      some (state.setBranch o name branch) := by
    rw [Store.get?_setBranch, if_pos rfl, hplants.owner, hstate₁, Option.map_some, Option.map_some]
    rfl
  refine ⟨_, hgrow, ⟨ν₂, _, hσ₂.setBranch hopen name branch,
    (hgrows₁.trans hplants.grows).setBranch name branch, hstate₂, ?_, ?_⟩⟩
  · rw [State.branches_setBranch, Table.set_of_notMem hnew]
    refine List.rel_append (hplants.grows.forall₂_matches hmatches₁ ?_) (.cons ⟨rfl, ?_⟩ .nil)
    · intro entry hentry slot child hchild
      have hkeys : (Table.keys state.branches).Nodup := by
        rw [keys_eq_of_matches hmatches₁]
        unfold Table.keys at hnodup ⊢
        rw [List.map_append] at hnodup
        exact (List.nodup_append.mp hnodup).1
      refine Store.live_of_place? ((hlinked₁ entry.1 slot child).mpr ⟨entry.2, ?_, hchild⟩)
      rw [hbranch₁]
      exact (Table.mem_iff_get? hkeys).mp hentry
    · rwa [Property.map_map, show (Prod.fst ∘ fun child : Node => (child, grammar.growth child)) =
        id from rfl, Property.map_id] at hreflects
  · intro other slot child
    rw [Store.place?_setBranch, hplants.stands, hlinked₁, hbranch₁, Store.branch?, hstate₂,
      Option.bind_some, State.branches_setBranch, Table.get?_set]
    split
    · rename_i heq
      subst heq
      simp [Table.get?_eq_none_iff.mpr hnew]
    · rename_i hne
      simp [hne]

/-- The branches of a bare open state can be grown for a valid node. -/
theorem growsAs (hgrammar : grammar.DistinctBranches) (root : Handle) (node : Node)
    (hnode : node.WellFormed) (hvalid : grammar.Valid node) :
    GrowsAs grammar root node (grammar.growth node) := by
  induction node using Node.induct with
  | step node ih =>
    intro σ ν H U o hσ hbare hlabel
    obtain ⟨found, hfound⟩ := hvalid.branches
    have hnodup := nodup_browse hgrammar hnode.keys hfound
    obtain ⟨state, hstate, hbranches⟩ := hbare.state
    have hopen : o ∈ insert o H := Set.mem_insert o H
    -- The invariant of the fold: the branches grown so far reflect their properties, in the store
    -- of the moment.
    have hstart : Growing grammar root σ ν (insert o H) U o [] σ := by
      refine ⟨ν, state, hσ, .refl σ ν o, hstate, by rw [hbranches]; exact .nil, ?_⟩
      intro name slot child
      rw [Store.branch?, hstate, Option.bind_some, hbranches]
      refine ⟨fun hchild => absurd hchild (hbare.leaf child name slot), ?_⟩
      rintro ⟨branch, hbranch, -⟩
      cases hbranch
    obtain ⟨σ', hfold, hgrown⟩ := foldlM_ok found (b := σ)
      (I := fun done σ' => Growing grammar root σ ν (insert o H) U o done σ') hstart
      fun done entry rest σ' hparts hgrowing => by
        have hentry : entry ∈ found := by simp [hparts]
        have hproperty := (mem_browse hnode.keys hfound).mp hentry
        refine hgrowing.step hopen ⟨state, hstate⟩ (hparts ▸ hnodup) hproperty.2.1
          fun slot child hchild => ?_
        have hmem := Property.mem_nodes_of_childAt? hchild
        refine ih _ (Table.mem_of_get? hproperty.1) child hmem (hnode.property hproperty.1 hmem) ?_
        exact ((hvalid.fits hnode.keys ((mem_branches hnode.keys hfound).mp hentry)).admits slot
          child hchild).valid
    obtain ⟨ν', state', hσ', hgrows, hstate', hmatches, hlinked⟩ := hgrown.grown
    have hready : (σ'.setStage o .ready).get? o = some { state' with stage := .ready } := by
      rw [Store.get?_setStage, if_pos rfl, hstate', Option.map_some]
    refine ⟨σ', ν', (growth_eq hfound o σ).trans hfold,
      (hσ'.setStage hopen .ready).close ?_ ?_, hgrows⟩
    · intro g hg _ hclosed name slot child
      obtain rfl := hg.resolve_right hclosed
      rw [Store.place?_setStage, hlinked, Store.branch?, Store.branch?, hready, hstate']
      rfl
    · intro g hg state'' hstate'' hclosed
      obtain rfl := hg.resolve_right hclosed
      rw [hready] at hstate''
      cases hstate''
      rw [hgrows.labels g ⟨state, hstate⟩, hlabel]
      refine .ready rfl ?_ hfound hmatches
      rwa [State.branches_stage, keys_eq_of_matches hmatches]

end Grammar

end TreeEditor
