import TreeEditor.Proofs.Reflection
import TreeEditor.Proofs.StatePaths

/-!
# Putting a node under its state

An edit changes one node and with it all nodes above. The states above the changed node are labelled
with the changed nodes (`Standing.reopen`), which they stand for as well as for the old ones, since
only the child on the way has changed. The state of the changed node itself is left open until its
branch is changed too, and can then be closed (`Standing.close_owner`).
-/

namespace TreeEditor.Standing

variable {grammar : Grammar} {root o : Handle} {σ σ' : Store} {ν ν' : Handle → Option Node}
  {U : Set Handle} {document node : Node} {path : Path}

/-- The label of an open state may change if the states that may hold it are open too. -/
theorem relabel_one {H : Set Handle} (hσ : Standing grammar root σ ν H U) (hopen : o ∈ H)
    (hparent : ∀ parent name slot, σ.place? o = some (.within parent name slot) → parent ∈ H)
    (item : Option Node) : Standing grammar root σ (Function.update ν o item) H U := by
  refine hσ.relabel fun h _ hclosed => ⟨?_, fun name slot child hchild => ?_⟩
  · exact Function.update_of_ne (fun heq : h = o => hclosed (heq ▸ hopen)) _ _
  · refine Function.update_of_ne (fun heq : child = o => hclosed ?_) _ _
    exact hparent h name slot (heq ▸ hchild)

/-- A state stands for its node with another child when the state of the child stands for that and
the states of all other children stand for what they stood for. -/
theorem settled_replaceChild (hσ : Standing grammar root σ ν ∅ ∅) {parent : Handle} {name : String}
    {slot : Slot} (hplace : σ.place? o = some (.within parent name slot)) {state : State}
    (hstate : σ.get? parent = some state) (hparent : ν parent = some node)
    (hwellFormed : node.WellFormed) {P : Property Node} (hP : grammar.branch? node name = some P)
    {held new : Node} (hheld : P.childAt? slot = some held) (hnew : ν' o = some new)
    (hothers : ∀ child name' slot', σ.place? child = some (.within parent name' slot') →
      child ≠ o → ν' child = ν child) :
    Settled grammar ν' state (some (node.set name (P.replaceChild slot new))) := by
  have hclosed := Set.notMem_empty parent
  have hsettled := hσ.settled parent state hstate hclosed
  rw [hparent] at hsettled
  obtain ⟨branch, hbranch, hchild⟩ :=
    (hσ.linked parent ⟨state, hstate⟩ hclosed name slot o).mp hplace
  rw [Store.branch?, hstate, Option.bind_some] at hbranch
  have hrel := hsettled.rel name
  rw [hP, hbranch] at hrel
  -- The child stands in one slot, so whatever stands in another one is another state.
  have hone : ∀ name' slot', σ.place? o = some (.within parent name' slot') →
      name' = name ∧ slot' = slot := by
    intro name' slot' hat
    rw [hplace] at hat
    cases hat
    exact ⟨rfl, rfl⟩
  refine hsettled.set hwellFormed hP Property.kind_replaceChild rfl (Table.set_get? hbranch).symm
    ?_ fun entry hentry hname slot' child hat => ?_
  · cases hrel with
    | some hreflects =>
      refine hreflects.replaceChild hheld (Branch.replaceChild_self name hchild) hnew
        fun other child hother hat => ?_
      have hat' := hσ.place?_of_entry hstate hclosed (Table.mem_of_get? hbranch) hat
      exact hothers child name other hat' fun heq => hother (hone name other (heq ▸ hat')).2
  · have hat' := hσ.place?_of_entry hstate hclosed hentry hat
    exact hothers child entry.1 slot' hat' fun heq => hname (hone entry.1 slot' (heq ▸ hat')).1

/-- A node can be put under its state, which is open then, and all nodes above are changed with
it. -/
theorem reopen (hσ : Standing grammar root σ ν ∅ ∅) (hroot : ν root = some document)
    (hdocument : document.WellFormed) (hclimbs : σ.Climbs o path) (hnode : ν o = some node)
    (new : Node) : ∃ ν', Standing grammar root σ ν' {o} ∅ ∧
      ν' root = some (document.put path new) ∧ ν' o = some new ∧
      ∀ h, ¬ σ.Under h o → ν' h = ν h := by
  induction hclimbs generalizing node new with
  | @root o hplace =>
    obtain rfl := (hσ.root_iff o).mp hplace
    refine ⟨Function.update ν o (some new), ?_, Function.update_self o _ ν,
      Function.update_self o _ ν, fun h hh => Function.update_of_ne ?_ _ _⟩
    · refine (hσ.mono (Set.empty_subset {o}) subset_rfl).relabel_one (Set.mem_singleton o)
        (fun _ _ _ hat => ?_) (some new)
      rw [hplace] at hat
      cases hat
    · exact fun heq => hh (heq ▸ .refl)
  | @within o parent name slot path hplace up ih =>
    obtain ⟨above, habove⟩ := hσ.isSome_of_place? hplace
    have hreach := (hσ.label_of_climbs hroot up).symm
    rw [habove] at hreach
    have hwellFormed := Grammar.wellFormed_reach hdocument hreach
    have hstep := hσ.label_of_place? hplace habove
    rw [hnode] at hstep
    obtain ⟨P, hP, hheld⟩ := Grammar.stepTo_eq_some.mp hstep.symm
    have hproperty := Grammar.property?_of_branch? hwellFormed.keys hP
    obtain ⟨ν₁, hσ₁, hroot₁, hparent₁, hothers₁⟩ := ih habove (above.replaceChild ⟨name, slot⟩ new)
    have hbelow : ¬ σ.Under o parent := Store.not_under_parent (.within hplace up) hplace
    have hne : parent ≠ o := fun heq => hbelow (heq ▸ .refl)
    refine ⟨Function.update ν₁ o (some new), ?_, ?_, Function.update_self o _ ν₁, ?_⟩
    · have hσ₂ : Standing grammar root σ (Function.update ν₁ o (some new)) {o, parent} ∅ := by
        refine (hσ₁.mono (Set.subset_insert o {parent}) subset_rfl).relabel_one
          (Set.mem_insert o _) (fun _ _ _ hat => ?_) _
        rw [hplace] at hat
        cases hat
        exact Set.mem_insert_of_mem o rfl
      -- The parent holds the state where it did, and of its children only this one has changed.
      refine hσ₂.close (fun h _ hlive _ => hσ.linked h hlive (Set.notMem_empty h)) ?_
      intro h hh state hstate hclosed
      obtain rfl : h = parent := hh.resolve_left hclosed
      rw [Function.update_of_ne hne, hparent₁, Node.replaceChild_eq new hproperty]
      refine hσ.settled_replaceChild hplace hstate habove hwellFormed hP hheld
        (Function.update_self o _ ν₁) fun child name' slot' hat hchild => ?_
      rw [Function.update_of_ne hchild]
      obtain ⟨path', hclimbs'⟩ := hσ.rooted child (Store.live_of_place? hat)
      exact hothers₁ child (Store.not_under_parent hclimbs' hat)
    · have hroot' : root ≠ o := by
        rintro rfl
        rw [(hσ.root_iff root).mpr rfl] at hplace
        cases hplace
      rw [Function.update_of_ne hroot', hroot₁, Grammar.put_append hdocument hreach,
        Node.put_cons (Grammar.step_of_stepTo hwellFormed hstep.symm)]
      rfl
    · intro h hh
      rw [Function.update_of_ne fun heq : h = o => hh (heq ▸ .refl)]
      exact hothers₁ h fun hunder => hh (.within hplace hunder)

/-- The owner of a branch can be closed once the branch reflects the changed property and its
children stand in its slots. -/
theorem close_owner (hσ : Standing grammar root σ ν ∅ ∅) {state : State}
    (hstate : σ.get? o = some state) (hnode : ν o = some node) (hwellFormed : node.WellFormed)
    {name : String} {P P' : Property Node} (hP : grammar.branch? node name = some P)
    (hkind : P'.kind = P.kind) (hσ' : Standing grammar root σ' ν' {o} U) {state' : State}
    (hstate' : σ'.get? o = some state') (hnode' : ν' o = some (node.set name P'))
    (hstage : state'.stage = state.stage) {branch' : Branch}
    (hbranches : state'.branches = Table.set name branch' state.branches)
    (hreflects : Reflects ν' P' branch')
    (hat : ∀ child slot, σ'.place? child = some (.within o name slot) ↔
      branch'.childAt? slot = some child)
    (hothers : ∀ child other slot, other ≠ name →
      (σ'.place? child = some (.within o other slot) ↔
        σ.place? child = some (.within o other slot)))
    (hlabels : ∀ child other slot, other ≠ name → σ.place? child = some (.within o other slot) →
      ν' child = ν child) : Standing grammar root σ' ν' ∅ U := by
  -- Under the name of the branch the new slots count, under other names nothing has changed.
  refine hσ'.close ?_ ?_
  · intro h hh _ _ other slot child
    rw [Set.mem_singleton_iff.mp hh, Store.branch?, hstate', Option.bind_some, hbranches,
      Table.get?_set]
    split
    · rename_i heq
      rw [heq, hat]
      simp
    · rename_i hne
      rw [hothers child other slot hne, hσ.linked o ⟨state, hstate⟩ (Set.notMem_empty o),
        Store.branch?, hstate, Option.bind_some]
  · intro h hh state'' hstate'' _
    rw [Set.mem_singleton_iff.mp hh] at hstate'' ⊢
    rw [hstate'] at hstate''
    cases hstate''
    have hsettled := hσ.settled o state hstate (Set.notMem_empty o)
    rw [hnode] at hsettled
    rw [hnode']
    exact hsettled.set hwellFormed hP hkind hstage hbranches hreflects
      fun entry hentry hne slot child hchild => hlabels child entry.1 slot hne
        (hσ.place?_of_entry hstate (Set.notMem_empty o) hentry hchild)

end TreeEditor.Standing
