import TreeEditor.Proofs.Construction
import TreeEditor.Proofs.CreationEvents

/-!
# What growing announces

Growing the states for a valid node goes through, leaves every state where it stands, and announces
exactly what `Grammar.tale` has to tell of the node (`Grammar.announces`). `Store.Raises` is what
each step contributes: the events that it adds to the journal bear out some notices, and the states
become as many more as there are notices of a creation. Nothing is asked of the grammar here, so
this also holds where two branches of a state get in each other's way.
-/

namespace TreeEditor

namespace Store

variable {σ σ₁ σ' : Store} {g h o c : Handle} {path owner : Path} {told told' : List Notice}

/-- States have been added, as some notices tell, and announced. -/
structure Raises (σ σ' : Store) (told : List Notice) : Prop where
  sound : σ'.arena.Sound
  kept : ∀ g place, σ.place? g = some place → σ'.place? g = some place
  size : σ'.arena.size = σ.arena.size + told.countP Notice.isCreated
  journal : ∃ events, σ'.journal.toList = σ.journal.toList ++ events ∧
    List.Forall₂ σ'.Attests told events

namespace Raises

/-- Nothing need be added. -/
theorem refl (hsound : σ.arena.Sound) : σ.Raises σ [] :=
  ⟨hsound, fun _ _ => id, rfl, [], (List.append_nil _).symm, .nil⟩

/-- What is added in two steps is added. -/
theorem trans (h : σ.Raises σ₁ told) (h' : σ₁.Raises σ' told') : σ.Raises σ' (told ++ told') := by
  obtain ⟨events, hevents, hattests⟩ := h.journal
  obtain ⟨events', hevents', hattests'⟩ := h'.journal
  refine ⟨h'.sound, fun g _ hplace => h'.kept g _ (h.kept g _ hplace), ?_,
    events ++ events', ?_, List.rel_append ?_ hattests'⟩
  · rw [h'.size, h.size, List.countP_append, Nat.add_assoc]
  · rw [hevents', hevents, List.append_assoc]
  · exact hattests.imp fun _ _ hattest => hattest.mono h'.kept

/-- The way up from a state is kept. -/
theorem climbs (h : σ.Raises σ' told) (hclimbs : σ.Climbs g path) : σ'.Climbs g path :=
  hclimbs.mono h.kept

end Raises

/-- Changing a state where it stands adds nothing. -/
theorem raises_modify (hsound : σ.arena.Sound) (h : Handle) {change : State → State}
    (hplace : ∀ state, (change state).place = state.place) :
    σ.Raises (σ.modify h change) [] where
  sound := hsound.modify h change
  kept := fun g _ hat => (place?_modify hplace h g).trans hat
  size := Arena.size_modify _ h change
  journal := ⟨[], (List.append_nil _).symm, .nil⟩

/-- Changing a state where it stands adds nothing to what was added. -/
theorem Raises.modify (hraises : σ.Raises σ' told) (h : Handle) {change : State → State}
    (hplace : ∀ state, (change state).place = state.place) :
    σ.Raises (σ'.modify h change) told := by
  simpa only [List.append_nil] using hraises.trans (raises_modify hraises.sound h hplace)

/-- An event is announced that bears out what is told of no new state. -/
theorem raises_announce (hsound : σ.arena.Sound) {notice : Notice} {event : Event}
    (hattests : σ.Attests notice event) (hcreated : notice.isCreated = false) :
    σ.Raises (σ.announce event) [notice] where
  sound := hsound
  kept := fun _ _ => id
  size := by
    rw [List.countP_cons_of_neg (by simp [hcreated])]
    rfl
  journal := ⟨[event], by simp [announce], .cons (hattests.mono fun _ _ => id) .nil⟩

/-- A place is that of a path: the root, or a slot of the state at the path of its owner. -/
inductive Leads (σ : Store) : Place → Path → Prop where
  | root : Leads σ .root []
  | within {o : Handle} {owner : Path} (name : String) (slot : Slot) (climbs : σ.Climbs o owner) :
    Leads σ (.within o name slot) (owner.child name slot)

/-- A state at the place of a path has that path. -/
theorem Leads.climbs {place : Place} (hleads : σ.Leads place path)
    (hplaces : ∀ g place, σ.place? g = some place → σ'.place? g = some place)
    (hplace : σ'.place? h = some place) : σ'.Climbs h path := by
  cases hleads with
  | root => exact .root hplace
  | within name slot climbs => exact .within hplace (climbs.mono hplaces)

/-- A new state is registered and announced. -/
theorem raises_begin (hsound : σ.arena.Sound) {place : Place} (hleads : σ.Leads place path)
    (hallocate : σ.allocate place = (c, σ₁)) :
    σ.Raises ((σ₁.enroll place c).announce (.stateCreated place c)) [.created path] ∧
      ((σ₁.enroll place c).announce (.stateCreated place c)).place? c = some place := by
  have hkept : ∀ g at', σ.place? g = some at' → σ₁.place? g = some at' := fun _ _ =>
    place?_mono_of_allocate hsound hallocate
  have hplace : σ₁.place? c = some place := by
    rw [place?_of_allocate hsound hallocate, if_pos rfl]
  obtain rfl : (σ.allocate place).1 = c := by rw [hallocate]
  obtain rfl : (σ.allocate place).2 = σ₁ := by rw [hallocate]
  refine ⟨⟨hsound.insert _, hkept, Arena.size_insert _ _, [.stateCreated place _], ?_,
    .cons (.created hplace ?_) .nil⟩, hplace⟩
  · simp [announce, enroll, allocate]
  · exact hleads.climbs hkept hplace

end Store

/-- Growing the branches of a state goes through and announces a tale. -/
def Growth.Announces (grow : Growth) (tale : Tale) : Prop :=
  ∀ σ o path, σ.arena.Sound → Store.Climbs σ o path →
    ∃ σ', grow o σ = .ok σ' ∧ σ.Raises σ' (tale path)

namespace Store

variable {σ : Store} {o : Handle} {path owner : Path} {name : String}

/-- A state is created, and everything inside it, and announced. -/
theorem create_announces (hsound : σ.arena.Sound) {place : Place} (hleads : σ.Leads place path)
    {growth : Option Growth} {tale : Option Tale}
    (hgrowth : Option.Rel Growth.Announces growth tale) :
    ∃ c σ', σ.create place growth = .ok (c, σ') ∧ σ.Raises σ' (Tale.around path tale) ∧
      σ'.Climbs c path := by
  obtain ⟨c, σ₁, hmade⟩ : ∃ c σ₁, σ.allocate place = (c, σ₁) := ⟨_, _, rfl⟩
  obtain ⟨hbegun, hplace⟩ := raises_begin hsound hleads hmade
  have hclimbs := hleads.climbs hbegun.kept hplace
  have hcreate : ∀ σ₂, ((σ₁.enroll place c).announce (.stateCreated place c)).fill c growth =
      .ok σ₂ → σ.create place growth = .ok (c, σ₂.announce (.stateSettled place c)) := by
    intro σ₂ hfill
    unfold create settle
    rw [hmade]
    dsimp only
    rw [hfill]
    rfl
  -- From here on only what is known of the store at the first announcement matters.
  generalize (σ₁.enroll place c).announce (.stateCreated place c) = begun at *
  have hfill : ∃ σ₂, begun.fill c growth = .ok σ₂ ∧
      begun.Raises σ₂ (tale.elim [] fun inside => inside path) := by
    cases hgrowth with
    | none =>
      exact ⟨_, enter_of_live hclimbs.live _, raises_modify hbegun.sound c fun _ => rfl⟩
    | some hannounces =>
      obtain ⟨σ₂, hgrow, hraises⟩ := hannounces begun c path hbegun.sound hclimbs
      refine ⟨σ₂.setStage c .ready, ?_, hraises.modify c fun _ => rfl⟩
      rw [fill, hgrow, ok_bind, enter_of_live (hraises.climbs hclimbs).live]
  obtain ⟨σ₂, hfilled, hraises⟩ := hfill
  have hsettled := raises_announce hraises.sound
    (.settled (hraises.kept c place hplace) (hraises.climbs hclimbs)) rfl
  exact ⟨c, _, hcreate σ₂ hfilled, (hbegun.trans hraises).trans hsettled,
    (hraises.trans hsettled).climbs hclimbs⟩

/-- States are created for slots of a state, and announced, one after the other. -/
theorem createAll_announces (tale : Node → Tale) (name : String) (slotAt : Nat → Slot)
    (entries : List (Node × Growth)) (hgrowth : ∀ entry ∈ entries, entry.2.Announces (tale entry.1))
    (position : Nat) (hsound : σ.arena.Sound) (hclimbs : σ.Climbs o owner) :
    ∃ handles σ', σ.createAll ((entries.zipIdx position).map fun entry =>
        (.within o name (slotAt entry.2), entry.1.2)) = .ok (handles, σ') ∧
      σ.Raises σ' (Tale.ofSlots owner name (((entries.map fun entry => tale entry.1).zipIdx
        position).map fun entry => (slotAt entry.2, entry.1))) := by
  induction entries generalizing σ position with
  | nil => exact ⟨[], σ, rfl, .refl hsound⟩
  | cons entry rest ih =>
    obtain ⟨c, σ₁, hcreate, hraises, -⟩ := create_announces hsound
      (.within name (slotAt position) hclimbs) (.some (hgrowth entry List.mem_cons_self))
    obtain ⟨handles, σ₂, hrest, hraises'⟩ := ih
      (fun entry hentry => hgrowth entry (List.mem_cons_of_mem _ hentry)) (position + 1)
      hraises.sound (hraises.climbs hclimbs)
    refine ⟨c :: handles, σ₂, ?_, hraises.trans hraises'⟩
    rw [List.zipIdx_cons, List.map_cons, createAll, hcreate, ok_bind]
    dsimp only
    rw [hrest]
    rfl

/-- The members of blocks are created and announced, after each block itself. -/
theorem createBlocks_announces (tale : Node → Tale) (name : String)
    (blocks : List (Block (Node × Growth) (Node × Growth)))
    (hgrowth : ∀ content ∈ blocks, ∀ entry ∈ content.members, entry.2.Announces (tale entry.1))
    (position : Nat) (hsound : σ.arena.Sound) (hclimbs : σ.Climbs o owner) :
    ∃ states σ', σ.createBlocks o name position blocks = .ok (states, σ') ∧
      σ.Raises σ' (Tale.ofBlocks owner name position
        (blocks.map (Block.map fun entry => tale entry.1))) := by
  induction blocks generalizing σ position with
  | nil => exact ⟨[], σ, rfl, .refl hsound⟩
  | cons content rest ih =>
    have hblock := raises_announce hsound (.blockCreated name position hclimbs) rfl
    obtain ⟨members, σ₁, hmembers, hraises⟩ := createAll_announces tale name
      (.member position) content.members (hgrowth content List.mem_cons_self) 0 hblock.sound
      (hblock.climbs hclimbs)
    have hcontent := hblock.trans hraises
    obtain ⟨states, σ₂, hrest, hraises'⟩ := ih
      (fun content hcontent => hgrowth content (List.mem_cons_of_mem _ hcontent)) (position + 1)
      hcontent.sound (hcontent.climbs hclimbs)
    refine ⟨⟨content.header.map Prod.fst, members⟩ :: states, σ₂, ?_, hcontent.trans hraises'⟩
    rw [createBlocks]
    dsimp only
    rw [hmembers, ok_bind]
    dsimp only
    rw [hrest]
    rfl

/-- The branch for a property is grown and announced. -/
theorem growBranch_announces (tale : Node → Tale) (name : String) (P : Property (Node × Growth))
    (hgrowth : ∀ slot entry, P.childAt? slot = some entry → entry.2.Announces (tale entry.1))
    (hsound : σ.arena.Sound) (hclimbs : σ.Climbs o owner) :
    ∃ σ', σ.growBranch o name P = .ok σ' ∧
      σ.Raises σ' (Tale.ofProperty owner name (P.map fun entry => tale entry.1)) := by
  have hset : ∀ {σ' : Store} {told : List Notice} (branch : Branch), σ.Raises σ' told →
      σ.Raises (σ'.setBranch o name branch) told := fun _ hraises =>
    hraises.modify o fun _ => rfl
  -- One case for each kind of property; all but values create states in their slots.
  cases P with
  | value leaf => exact ⟨σ, rfl, .refl hsound⟩
  | child entry =>
    obtain ⟨c, σ', hcreate, hraises, -⟩ := create_announces hsound
      (.within name .placeholder hclimbs) (.some (hgrowth .placeholder entry rfl))
    exact ⟨_, by rw [growBranch, hcreate]; rfl, hset (.placeholder c) hraises⟩
  | optional assigned item =>
    have hrel : Option.Rel Growth.Announces (if assigned then item.map Prod.snd else none)
        (if assigned then item.map fun entry => tale entry.1 else none) := by
      cases assigned with
      | false => exact .none
      | true =>
        cases item with
        | none => exact .none
        | some entry => exact .some (hgrowth .optional entry rfl)
    obtain ⟨c, σ', hcreate, hraises, -⟩ := create_announces hsound
      (.within name .optional hclimbs) hrel
    refine ⟨_, ?_, hset (.optional c) hraises⟩
    rw [growBranch]
    dsimp only
    rw [hcreate]
    rfl
  | list entries =>
    obtain ⟨handles, σ', hcreate, hraises⟩ := createAll_announces tale name
      .list entries (fun entry hentry => by
        obtain ⟨position, hposition⟩ := List.mem_iff_getElem?.mp hentry
        exact hgrowth (.list position) entry hposition) 0 hsound hclimbs
    exact ⟨_, by rw [growBranch, hcreate]; rfl, hset (.list handles) hraises⟩
  | blockList blocks =>
    have hlist := raises_announce hsound (.blockListCreated name hclimbs) rfl
    obtain ⟨states, σ', hcreate, hraises⟩ := createBlocks_announces tale name
      blocks (fun content hcontent entry hentry => by
        obtain ⟨block, hblock⟩ := List.mem_iff_getElem?.mp hcontent
        obtain ⟨position, hposition⟩ := List.mem_iff_getElem?.mp hentry
        refine hgrowth (.member block position) entry ?_
        simp only [Property.childAt?, hblock, Option.bind_some, hposition]) 0 hlist.sound
      (hlist.climbs hclimbs)
    refine ⟨_, ?_, hset (.blockList states) (hlist.trans hraises)⟩
    rw [growBranch]
    dsimp only
    rw [hcreate]
    rfl

end Store

namespace Grammar

variable {grammar : Grammar}

/-- Growing the states for a valid node goes through and announces its tale. -/
theorem announces (node : Node) (hnode : node.WellFormed) (hvalid : grammar.Valid node) :
    (grammar.growth node).Announces (grammar.tale node) := by
  induction node using Node.induct with
  | step node ih =>
    intro σ o path hsound hclimbs
    obtain ⟨found, hfound, hfits⟩ := valid_iff_branches.mp hvalid
    obtain ⟨σ', hfold, hraises⟩ := foldlM_ok found (b := σ)
      (I := fun done σ' => σ.Raises σ' (done.flatMap fun entry =>
        Tale.ofProperty path entry.1 (entry.2.map grammar.tale))) (.refl hsound)
      fun done entry rest σ₁ hparts hraises => by
        have hentry : entry ∈ found := by simp [hparts]
        obtain ⟨σ₂, hgrow, hraises'⟩ := Store.growBranch_announces grammar.tale entry.1
          (entry.2.map fun child => (child, grammar.growth child))
          (fun slot held hheld => by
            rw [Property.childAt?_map] at hheld
            obtain ⟨child, hchild, rfl⟩ := Option.map_eq_some_iff.mp hheld
            have hproperty := (mem_browse hnode.keys hfound).mp hentry
            have hmem := Property.mem_nodes_of_childAt? hchild
            have hadmits := (hfits entry hentry).admits slot child hchild
            exact ih _ (Table.mem_of_get? hproperty.1) child hmem
              (hnode.property hproperty.1 hmem) hadmits.valid)
          hraises.sound (hraises.climbs hclimbs)
        refine ⟨σ₂, hgrow, ?_⟩
        rw [List.flatMap_append, List.flatMap_singleton]
        rw [Property.map_map] at hraises'
        exact hraises.trans hraises'
    exact ⟨σ', (growth_eq hfound o σ).trans hfold, (tale_eq hfound path).symm ▸ hraises⟩

end Grammar

namespace Editor

variable {document : Node} {grammar : Grammar} {settings : Settings} {editor : Editor}

/-- An editor can be made of every valid document, and making it announces the tale of the
document. -/
theorem exists_announced (hdocument : document.WellFormed) (hvalid : grammar.Valid document)
    (settings : Settings) :
    ∃ editor, ofDocument document grammar settings = .ok editor ∧
      Store.empty.Raises editor.store (Tale.around [] (some (grammar.tale document))) := by
  obtain ⟨root, σ, hcreate, hraises, -⟩ := Store.create_announces (σ := .empty)
    Arena.sound_empty .root (.some (grammar.announces document hdocument hvalid))
  refine ⟨⟨grammar, document, σ, root, .withLimit settings.maxUndoLevels, settings⟩, ?_, hraises⟩
  rw [ofDocument, show grammar.validate document = .ok () from hvalid, hcreate]
  rfl

/-- What was announced when an editor was made is the tale of its document. -/
theorem announced_ofDocument (hdocument : document.WellFormed)
    (h : ofDocument document grammar settings = .ok editor) :
    Store.empty.Raises editor.store (Tale.around [] (some (grammar.tale document))) := by
  obtain ⟨editor', hmade, hraises⟩ :=
    exists_announced hdocument (valid_of_ofDocument h) settings
  rw [hmade] at h
  cases h
  exact hraises

end Editor

end TreeEditor
