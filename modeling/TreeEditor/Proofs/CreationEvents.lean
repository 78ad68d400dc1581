import TreeEditor.Proofs.Audit
import TreeEditor.Proofs.Replay

/-!
# What the creation of a document tells

What is told when the states for a document are made depends on the document alone, but for the
names: which states are created and settled at which paths, and in between which lists of blocks
and which blocks. `Grammar.tale` writes that down with paths in the place of handles. An event bears
a notice out when the state that it names stands at the path of the notice (`Store.Attests`), so
events that bear out the same notices in two stores differ by the names of the states only.

Replaying the creation of a state of a standing store gives events that bear out the tale of its
node (`Standing.attests_creationEvents`).
-/

namespace TreeEditor

/-- What an event of a creation says, with the path of a state in the place of its handle. -/
inductive Notice where
  | created (path : Path)
  | settled (path : Path)
  | blockListCreated (owner : Path) (property : String)
  | blockCreated (owner : Path) (property : String) (block : Nat)

namespace Notice

/-- A notice that a state was created. -/
def isCreated : Notice → Bool
  | created _ => true
  | _ => false

end Notice

/-- What is told of everything inside a state, given its path. -/
abbrev Tale := Path → List Notice

namespace Tale

/-- A state at a path is told of before and after what is inside it. A vacant one is empty. -/
def around (path : Path) (tale : Option Tale) : List Notice :=
  .created path :: tale.elim [] (fun inside => inside path) ++ [.settled path]

/-- The states in some slots are told of one after the other. -/
def ofSlots (owner : Path) (name : String) (slots : List (Slot × Tale)) : List Notice :=
  slots.flatMap fun entry => around (owner.child name entry.1) (some entry.2)

/-- The members of the blocks from a position on are told of, after each block itself. -/
def ofBlocks (owner : Path) (name : String) (position : Nat) (blocks : List (Block Tale Tale)) :
    List Notice :=
  (blocks.zipIdx position).flatMap fun entry =>
    .blockCreated owner name entry.2 :: ofSlots owner name
      (entry.1.members.zipIdx.map fun member => (.member entry.2 member.2, member.1))

/-- The children under a property are told of. -/
def ofProperty (owner : Path) (name : String) : Property Tale → List Notice
  | .value _ => []
  | .child tale => around (owner.child name .placeholder) (some tale)
  | .optional assigned item =>
    around (owner.child name .optional) (if assigned then item else none)
  | .list tales => ofSlots owner name (listSlots tales)
  | .blockList blocks => .blockListCreated owner name :: ofBlocks owner name 0 blocks

end Tale

namespace Grammar

/-- What is told of the children of a node, in the order of the grammar. -/
def tale (grammar : Grammar) (node : Node) : Tale :=
  node.fold fun kind properties path =>
    match grammar.browse kind properties with
    | .ok branches => branches.flatMap fun (name, property) =>
      Tale.ofProperty path name (property.map Prod.snd)
    | .error _ => []

/-- The branches of a node are told of one after the other. -/
theorem tale_eq {grammar : Grammar} {node : Node} {found : List (String × Property Node)}
    (hfound : grammar.branches node = .ok found) (path : Path) :
    grammar.tale node path = found.flatMap fun entry =>
      Tale.ofProperty path entry.1 (entry.2.map grammar.tale) := by
  cases node with
  | mk kind properties =>
    rw [tale, Node.fold_mk, browse_map_children,
      show grammar.browse kind properties = .ok found from hfound]
    simp only [Except.map, List.flatMap_map, Property.map_map]
    rfl

end Grammar

/-! ## Events that bear a notice out -/

namespace Store

variable {σ σ' : Store} {g h o : Handle} {path : Path} {notice : Notice} {event : Event}

/-- An event says of a state what a notice says of its path. -/
inductive Attests (σ : Store) : Notice → Event → Prop where
  | created {h : Handle} {place : Place} {path : Path} (stands : σ.place? h = some place)
    (climbs : σ.Climbs h path) : Attests σ (.created path) (.stateCreated place h)
  | settled {h : Handle} {place : Place} {path : Path} (stands : σ.place? h = some place)
    (climbs : σ.Climbs h path) : Attests σ (.settled path) (.stateSettled place h)
  | blockListCreated {o : Handle} {owner : Path} (name : String) (climbs : σ.Climbs o owner) :
    Attests σ (.blockListCreated owner name) (.blockListCreated ⟨o, name⟩)
  | blockCreated {o : Handle} {owner : Path} (name : String) (block : Nat)
    (climbs : σ.Climbs o owner) :
    Attests σ (.blockCreated owner name block) (.blockCreated ⟨o, name⟩ block)

/-- What bears a notice out goes on doing so while the states stay where they are. -/
theorem Attests.mono (h : σ.Attests notice event)
    (hplaces : ∀ g place, σ.place? g = some place → σ'.place? g = some place) :
    σ'.Attests notice event := by
  cases h with
  | created stands climbs => exact .created (hplaces _ _ stands) (climbs.mono hplaces)
  | settled stands climbs => exact .settled (hplaces _ _ stands) (climbs.mono hplaces)
  | blockListCreated name climbs => exact .blockListCreated name (climbs.mono hplaces)
  | blockCreated name block climbs => exact .blockCreated name block (climbs.mono hplaces)

/-- The events that a step gives bear some notices out. -/
def Gives (σ : Store) (step : Except Failure (List Event)) (notices : List Notice) : Prop :=
  ∃ events, step = .ok events ∧ List.Forall₂ σ.Attests notices events

/-- The events for the items of a list bear out what is told of them. -/
theorem gives_eventsOfAll {α β : Type} {step : α → Except Failure (List Event)}
    {told : β → List Notice} {as : List α} {bs : List β}
    (h : List.Forall₂ (fun b a => σ.Gives (step a) (told b)) bs as) :
    σ.Gives (eventsOfAll step as) (bs.flatMap told) := by
  induction h with
  | nil => exact ⟨[], rfl, .nil⟩
  | cons hfirst _ ih =>
    obtain ⟨events, hevents, hattests⟩ := hfirst
    obtain ⟨events', hevents', hattests'⟩ := ih
    rw [List.flatMap_cons]
    exact ⟨events ++ events', eventsOfAll_cons hevents hevents', List.rel_append hattests hattests'⟩

end Store

/-! ## Replaying the creation of a state -/

namespace Store

variable {σ : Store} {ν : Handle → Option Node} {o : Handle} {owner : Path} {name : String}
  {replay : Handle → Except Failure (List Event)} {tale : Node → Tale}

/-- The events of a state bear out what is told of its node, around what is inside it. -/
abbrev Replays (σ : Store) (ν : Handle → Option Node) (tale : Node → Tale)
    (replay : Handle → Except Failure (List Event)) (path : Path) (h : Handle) : Prop :=
  σ.Gives (replay h) (Tale.around path ((ν h).map tale))

/-- The events of states in some slots bear out what is told of their nodes. -/
theorem gives_slots (tale : Node → Tale) (replay : Handle → Except Failure (List Event))
    (owner : Path) (name : String) {slots : List (Slot × Node)} {held : List (Slot × Handle)}
    (hslots : List.Forall₂ (fun a b => a.1 = b.1 ∧ Labels ν a.2 b.2) slots held)
    (hreplays : ∀ entry ∈ held, σ.Replays ν tale replay (owner.child name entry.1) entry.2) :
    σ.Gives (eventsOfAll replay (held.map Prod.snd))
      (Tale.ofSlots owner name (slots.map fun entry => (entry.1, tale entry.2))) := by
  unfold Tale.ofSlots
  rw [List.flatMap_map]
  refine gives_eventsOfAll (List.forall₂_map_right_iff.mpr ((forall₂_attach hslots).imp ?_))
  rintro ⟨slot, node⟩ ⟨slot', child⟩ ⟨-, hmem, hslot, hlabel⟩
  obtain rfl : slot = slot' := hslot
  have htold := hreplays _ hmem
  unfold Replays at htold
  rwa [show ν child = some node from hlabel] at htold

/-- The events around those of what is inside a state bear out what is told of the state. -/
theorem attests_around {h : Handle} {path : Path} {place : Place} {tale : Option Tale}
    {events : List Event} (hstands : σ.place? h = some place) (hclimbs : σ.Climbs h path)
    (hinside : List.Forall₂ σ.Attests (tale.elim [] fun inside => inside path) events) :
    List.Forall₂ σ.Attests (Tale.around path tale)
      (.stateCreated place h :: events ++ [.stateSettled place h]) :=
  .cons (.created hstands hclimbs)
    (List.rel_append hinside (.cons (.settled hstands hclimbs) .nil))

/-- The events of the blocks from a position on bear out what is told of them. -/
theorem gives_blocks (tale : Node → Tale) (replay : Handle → Except Failure (List Event))
    (name : String) (hclimbs : σ.Climbs o owner) {blocks : List (Block Node Node)}
    {states : List (Block Node Handle)}
    (hblocks : List.Forall₂ (Block.Corresponds Eq (Labels ν)) blocks states) (position : Nat)
    (hreplays : ∀ i j c, (states[i]?.bind fun content => content.members[j]?) = some c →
      σ.Replays ν tale replay (owner.child name (.member (position + i) j)) c) :
    σ.Gives (eventsOfAll (fun (block, position) => do
        return .blockCreated ⟨o, name⟩ position :: (← eventsOfAll replay block.members))
        (states.zipIdx position))
      (Tale.ofBlocks owner name position (blocks.map (Block.map tale))) := by
  unfold Tale.ofBlocks
  refine gives_eventsOfAll ?_
  -- By induction on the blocks, with the position of the first one generalised.
  induction hblocks generalizing position with
  | nil => exact .nil
  | @cons content state _ _ hcontent _ ih =>
    rw [List.map_cons, List.zipIdx_cons, List.zipIdx_cons]
    refine .cons ?_ (ih (position + 1) fun i j c hc => ?_)
    · have hslots := forall₂_zipIdx hcontent.members (.member position) 0
      obtain ⟨events, hevents, hattests⟩ :=
        gives_slots tale replay owner name hslots fun entry hentry => by
          obtain ⟨⟨member, j⟩, hmember, rfl⟩ := List.mem_map.mp hentry
          exact hreplays 0 j member (List.mk_mem_zipIdx_iff_getElem?.mp hmember)
      have hfst : (Prod.snd ∘ fun entry : Handle × Nat =>
          (Slot.member position entry.2, entry.1)) = Prod.fst := rfl
      rw [List.map_map, hfst, List.zipIdx_map_fst] at hevents
      refine ⟨.blockCreated ⟨o, name⟩ position :: events, ?_, .cons (.blockCreated _ _ hclimbs) ?_⟩
      · dsimp only
        rw [hevents]
        rfl
      · simpa [Block.map, List.zipIdx_map, Function.comp_def] using hattests
    · have hnext := hreplays (i + 1) j c hc
      rwa [show position + (i + 1) = position + 1 + i by omega] at hnext

/-- The events of a branch bear out what is told of the property that it reflects. -/
theorem gives_branch (hclimbs : σ.Climbs o owner) {P : Property Node} {branch : Branch}
    (hreflects : Reflects ν P branch) (hreplays : ∀ slot c, branch.childAt? slot = some c →
      σ.Replays ν tale replay (owner.child name slot) c) :
    σ.Gives (branchCreation replay ⟨o, name⟩ branch)
      (Tale.ofProperty owner name (P.map tale)) := by
  -- What is told of a single child is a list with one tale in it.
  have hone : ∀ c path, σ.Replays ν tale replay path c →
      σ.Gives (eventsOfAll replay [c]) (Tale.around path ((ν c).map tale)) := by
    intro c path hreplay
    have htold := gives_eventsOfAll (List.Forall₂.cons
      (R := fun c d => σ.Gives (replay d) (Tale.around path ((ν c).map tale))) hreplay .nil)
    simpa using htold
  cases hreflects with
  | @placeholder node child label =>
    have htold := hone child _ (hreplays .placeholder child rfl)
    rwa [show ν child = some node from label] at htold
  | @optional assigned item child label =>
    have htold := hone child _ (hreplays .optional child rfl)
    rw [label] at htold
    cases assigned <;> exact htold
  | @list nodes children labels =>
    have htold :=
      gives_slots tale replay owner name (forall₂_listSlots labels) fun entry hentry => by
        obtain ⟨position, hslot, hchild⟩ := mem_listSlots.mp hentry
        exact hreplays entry.1 entry.2 (hslot ▸ hchild)
    rw [← listSlots_map] at htold
    exact htold
  | @blockList blocks states labels =>
    obtain ⟨events, hevents, hattests⟩ :=
      gives_blocks tale replay name hclimbs labels 0 fun i j c hc => by
        rw [Nat.zero_add]
        exact hreplays (.member i j) c hc
    refine ⟨.blockListCreated ⟨o, name⟩ :: events, ?_, .cons (.blockListCreated _ hclimbs) hattests⟩
    rw [branchCreation, hevents]
    rfl

end Store

namespace Standing

variable {grammar : Grammar} {root h : Handle} {σ : Store} {ν : Handle → Option Node}
  {U : Set Handle} {path : Path}

/-- Replaying the creation of a state gives events that bear out the tale of its node. -/
theorem replays (hσ : Standing grammar root σ ν ∅ U) (generations : Nat)
    (hclimbs : σ.Climbs h path) (hgenerations : σ.arena.occupied ≤ generations + path.length) :
    σ.Replays ν grammar.tale (σ.creationWithin generations) path h := by
  -- Each generation less is one step further down.
  induction generations generalizing h path with
  | zero =>
    have hlt := hclimbs.length_lt
    omega
  | succ generations ih =>
    obtain ⟨state, hstate⟩ := hclimbs.live
    have hopen : h ∉ (∅ : Set Handle) := Set.notMem_empty h
    have hstands : σ.place? h = some state.place := Store.place?_eq_some.mpr ⟨state, hstate, rfl⟩
    have hinside : σ.Gives (Store.eventsOfAll (fun entry : String × Branch =>
        Store.branchCreation (σ.creationWithin generations) ⟨h, entry.1⟩ entry.2) state.branches)
        (((ν h).map grammar.tale).elim [] fun inside => inside path) := by
      have hsettled := hσ.settled h state hstate hopen
      generalize hitem : ν h = item at hsettled
      cases hsettled with
      | vacant stage branches =>
        rw [branches]
        exact ⟨[], rfl, .nil⟩
      | @ready node found stage keys shape reflects =>
        rw [Option.map_some, Option.elim_some, Grammar.tale_eq shape]
        refine Store.gives_eventsOfAll ((forall₂_attach reflects).imp ?_)
        rintro ⟨name, P⟩ ⟨_, branch⟩ ⟨-, hentry, rfl, hreflects⟩
        refine Store.gives_branch hclimbs hreflects fun slot c hc => ?_
        have hplace := hσ.place?_of_entry hstate hopen hentry hc
        exact ih (.within hplace hclimbs) (by simp [Path.child]; omega)
    obtain ⟨events, hevents, hattests⟩ := hinside
    refine ⟨_, ?_, Store.attests_around hstands hclimbs hattests⟩
    rw [Store.creationWithin, Store.expect_eq_ok.mpr hstate, ok_bind,
      Store.eventsOfAll_inners (hσ.owned h state hstate)
        (Store.branchCreation (σ.creationWithin generations))]
    exact bind_eq_ok.mpr ⟨events, hevents, rfl⟩

/-- The events that tell a newcomer of all states bear out the tale of the document. -/
theorem attests_creationEvents (hσ : Standing grammar root σ ν ∅ U) {document : Node}
    (hdocument : ν root = some document) :
    σ.Gives (σ.creationEvents root) (Tale.around [] (some (grammar.tale document))) := by
  have htold := hσ.replays σ.generations hσ.climbs_root
    (σ.occupied_lt_generations.le.trans (Nat.le_add_right _ _))
  unfold Store.Replays at htold
  rwa [hdocument] at htold

end Standing

end TreeEditor
