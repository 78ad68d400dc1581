import TreeEditor.Proofs.Locus
import TreeEditor.Proofs.StatePaths

/-!
# Replacements among the states

A node in a slot is replaced by removing the state that stands there, with everything below it, and
making another one in its stead (`Locus.replace`). The new state may take the cell of the old one,
but not its handle: the cell is of another generation by then.
-/

namespace TreeEditor

namespace Store

variable {σ σ₁ σ' : Store} {ν ν' : Handle → Option Node} {c d g o : Handle} {name : String}
  {slot : Slot} {change : State → State}

section Exchange

variable (hsweeps : σ.Sweeps σ₁ [c])
  (hplants : σ₁.Plants ν σ' ν' o change name fun slot' child => slot' = slot ∧ child = d)

include hsweeps

/-- Of the states that were live those are left that are not below the one that was removed. -/
theorem live_swept_iff : σ₁.Live g ↔ σ.Live g ∧ ¬ σ.Under c g := by
  simpa only [List.mem_singleton, forall_eq] using hsweeps.live_iff (g := g)

include hplants

/-- What was live and is live once another state has been made has been there in between: the
handles that came with the new state named nothing before. -/
theorem live_between (hlive : σ.Live g) (hlive' : σ'.Live g) : σ₁.Live g :=
  ((hplants.grows.fresh _ (Arena.Follows.of_generations hsweeps.generations)).2 g
    hlive').resolve_right fun hnone => not_live.mpr hnone hlive

/-- What stays in the exchange stands where it stood. -/
theorem place?_exchange (hlive : σ.Live g) (hlive' : σ'.Live g) : σ'.place? g = σ.place? g := by
  have hbetween := live_between hsweeps hplants hlive hlive'
  exact (hplants.grows.place?_eq hbetween).trans
    (hsweeps.place?_kept (hsweeps.live_iff.mp hbetween).2)

/-- What stays in the exchange and is not the owner is as it was. -/
theorem get?_exchange (hlive : σ.Live g) (hlive' : σ'.Live g) (hne : g ≠ o) :
    σ'.get? g = σ.get? g := by
  have hbetween := live_between hsweeps hplants hlive hlive'
  rw [hplants.grows.kept g hbetween hne, hsweeps.kept g (hsweeps.live_iff.mp hbetween).2]

/-- What was live goes in the exchange just when it is below the state that is removed. -/
theorem live_exchange_iff (hlive : σ.Live g) : σ'.Live g ↔ ¬ σ.Under c g := by
  constructor
  · intro hlive'
    exact ((live_swept_iff hsweeps).mp (live_between hsweeps hplants hlive hlive')).2
  · intro hunder
    exact hplants.grows.live ((live_swept_iff hsweeps).mpr ⟨hlive, hunder⟩)

/-- The new state has a handle that named nothing before. -/
theorem not_live_exchange : ¬ σ.Live d := fun hlive => by
  have hd := (hplants.stands d name slot).mpr (.inr ⟨rfl, rfl, rfl⟩)
  exact not_live.mpr (hplants.new slot d ⟨rfl, rfl⟩)
    (live_between hsweeps hplants hlive (live_of_place? hd))

end Exchange

end Store

namespace Locus

variable {editor : Editor} {ν : Handle → Option Node} {address : BranchPath}

section Exchange

variable (locus : Locus editor ν address) {slot : Slot} {c d : Handle} {σ₁ σ' : Store}
  {ν₁ ν' : Handle → Option Node} {change : State → State}
  (hslot : locus.branch.childAt? slot = some c) (hsweeps : editor.store.Sweeps σ₁ [c])
  (hplants : σ₁.Plants ν₁ σ' ν' locus.owner change address.property
    fun slot' child => slot' = slot ∧ child = d)

include hslot hsweeps hplants

/-- In the slots of the branch stands what stood there, but the new state in its slot. -/
theorem stands_exchange_iff (child : Handle) (slot' : Slot) :
    σ'.place? child = some (.within locus.owner address.property slot') ↔
      (if slot' = slot then some d else locus.branch.childAt? slot') = some child := by
  have hc := locus.stands_iff.mpr hslot
  rw [hplants.stands, hsweeps.stands_iff (.within hc locus.climbs) hc, locus.stands_iff]
  by_cases heq : slot' = slot
  · subst heq
    simp [hslot, eq_comm]
  · have hne : locus.branch.childAt? slot' = some child → child ≠ c := by
      rintro hchild rfl
      rw [← locus.stands_iff, hc] at hchild
      cases hchild
      exact heq rfl
    simpa [heq] using hne

/-- In the slots of the other branches stands what stood there. -/
theorem others_exchange_iff (child : Handle) {other : String} (slot' : Slot)
    (hne : other ≠ address.property) :
    σ'.place? child = some (.within locus.owner other slot') ↔
      editor.store.place? child = some (.within locus.owner other slot') := by
  have hc := locus.stands_iff.mpr hslot
  rw [hplants.stands, hsweeps.stands_iff (.within hc locus.climbs) hc,
    or_iff_left (fun hat => hne hat.1), and_iff_right_iff_imp]
  rintro hplace rfl
  rw [hc] at hplace
  cases hplace
  exact hne rfl

end Exchange

/-- The node in a slot can be replaced. -/
theorem replace (locus : Locus editor ν address) {slot : Slot} {held before after : Node}
    (hheld : locus.property.childAt? slot = some held) (hnode : after.WellFormed)
    (hvalid : editor.grammar.Valid after) :
    ∃ c σ₁ d σ₂ σ₃ σ', locus.branch.childAt? slot = some c ∧
      editor.store.destroy c = .ok σ₁ ∧
      σ₁.allocate (.within locus.owner address.property slot) = (d, σ₂) ∧
      σ₂.modifyBranch locus.owner address.property (fun states => do
        return (← states.replaceChild address.property slot d).2) = .ok σ₃ ∧
      (σ₃.enroll (.within locus.owner address.property slot) d).settle
        (.within locus.owner address.property slot) d (some (editor.grammar.growth after)) =
          .ok σ' ∧
      locus.Becomes (.replace address slot before after) (locus.property.replaceChild slot after)
        σ' := by
  obtain ⟨c, hslot, hlabel⟩ := locus.reflects.exists_child hheld
  have hc := locus.stands_iff.mpr hslot
  have hclimbs : editor.store.Climbs c (address.child slot) := .within hc locus.climbs
  obtain ⟨ν₁, hν₁, hroot₁, hlabel₁, hothers₁⟩ :=
    locus.reopen (locus.node.set address.property (locus.property.replaceChild slot after))
  obtain ⟨σ₁, hdestroy, hσ₁, hsweeps⟩ := hν₁.destroy hc (Set.mem_singleton locus.owner)
    fun g hunder hg => locus.not_under hc (Set.mem_singleton_iff.mp hg ▸ hunder)
  have howner₁ : σ₁.get? locus.owner = editor.store.get? locus.owner :=
    hsweeps.kept _ fun d hd => List.mem_singleton.mp hd ▸ locus.not_under hc
  have howner : σ₁.Live locus.owner :=
    (Store.live_swept_iff hsweeps).mpr ⟨locus.climbs.live, locus.not_under hc⟩
  choose branch' hreplace hchildAt using fun d =>
    Branch.exists_replaceChild address.property d hslot
  obtain ⟨d, σ₂, σ', ν', hallocate, hsettle, hσ', hlabel', hplants⟩ := hσ₁.plant
    (Set.mem_singleton locus.owner) howner
    (fun g hat => by
      obtain ⟨hne, hat⟩ := (hsweeps.stands_iff hclimbs hc).mp hat
      rw [locus.stands_iff, hslot] at hat
      exact hne (Option.some.inj hat).symm)
    (.some (Grammar.growsAs locus.mirrors.distinct.branches editor.root after hnode hvalid))
    (fun d => State.setBranch locus.owner address.property (branch' d)) (fun _ _ => rfl)
    fun d _ howned => howned.setBranch address.property (branch' d)
  have hlabels : ∀ g, editor.store.Live g → σ'.Live g → ν' g = ν₁ g := fun g hlive hlive' =>
    hplants.grows.labels g (Store.live_between hsweeps hplants hlive hlive')
  have hroot : σ₁.Live editor.root := Store.live_of_place? ((hσ₁.root_iff _).mpr rfl)
  have hstands : ∀ child slot', σ'.place? child =
      some (.within locus.owner address.property slot') ↔
        (branch' d).childAt? slot' = some child := fun child slot' => by
    rw [locus.stands_exchange_iff hslot hsweeps hplants, hchildAt]
  have hd : σ'.place? d = some (.within locus.owner address.property slot) :=
    (hplants.stands d _ slot).mpr (.inr ⟨rfl, rfl, rfl⟩)
  have hnew := Store.not_live_exchange hsweeps hplants
  have hgone : ¬ σ'.Live c := fun hlive =>
    (Store.live_exchange_iff hsweeps hplants hclimbs.live).mp hlive .refl
  have hreshaped : locus.Reshaped (.replace address slot before after)
      (locus.property.replaceChild slot after) (branch' d) (fun g => g = d) σ' ν' := {
    standing := hσ'
    root := (hplants.grows.labels _ hroot).trans hroot₁
    label := (hplants.grows.labels _ howner).trans hlabel₁
    owner := by
      rw [hplants.owner, howner₁, Store.get?_setBranch, if_pos rfl]
    reflects := by
      refine locus.reflects.replaceChild hheld (hreplace d) hlabel' fun other child hne hchild => ?_
      have hplace := locus.stands_iff.mpr hchild
      have hchild' : σ'.place? child = some (.within locus.owner address.property other) := by
        rwa [hstands, hchildAt, if_neg hne]
      exact (hlabels child (Store.live_of_place? hplace) (Store.live_of_place? hchild')).trans
        (hothers₁ child (locus.not_under hplace))
    stands := hstands
    others := fun child _ slot' => locus.others_exchange_iff hslot hsweeps hplants child slot'
    places := fun _ hlive hlive' => .inl (Store.place?_exchange hsweeps hplants hlive hlive')
    labels := fun h path hclimbs hlive htouches => (hlabels h hclimbs.live hlive).trans
      (hothers₁ h (locus.not_under_of_touches rfl hclimbs htouches))
    rewrites := .replace hgone hnew (hreplace d)
    bodies := fun h _ hclimbs hlive _ hne => by
      rw [Store.body?, Store.get?_exchange hsweeps hplants hclimbs.live hlive hne, Store.body?]
    gone := fun h hlive => by
      rw [Store.live_exchange_iff hsweeps hplants hlive,
        locus.mirrors.standing.under_iff_exists hclimbs hlive]
      exact Iff.rfl
    fresh := by
      rintro g rfl
      exact hnew
    below := fun h hlive => by
      rcases hplants.below h hlive with hlive | ⟨slot', _, ⟨-, rfl⟩, hunder⟩
      · exact .inl ((Store.live_swept_iff hsweeps).mp hlive).1
      · exact .inr ⟨_, rfl, hunder⟩
    installs := fun _ hclimbs _ _ _ =>
      (show σ'.Climbs d (address.child slot) from .within hd hclimbs).prefix_iff }
  have hheld₂ : σ₂.branch? locus.owner address.property = some locus.branch := by
    rw [Store.branch?_of_allocate hσ₁.arena hallocate howner, Store.branch?, howner₁]
    exact locus.held
  refine ⟨c, σ₁, d, σ₂, _, σ', hslot, hdestroy, hallocate, Store.modifyBranch_ok hheld₂ ?_,
    hsettle, hreshaped.becomes rfl Property.kind_replaceChild⟩
  rw [hreplace]
  rfl

end Locus

end TreeEditor
