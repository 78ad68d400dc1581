import TreeEditor.Proofs.JournalAccounts
import TreeEditor.Proofs.Growth

/-!
# Growing is told

Whatever is grown is told of: `Store.settle` announces a state before its branches are grown and
once more after that, so the two events stand around those of everything under the state. Blocks are
announced before their members, while the state has no branch for them yet; they are owed until the
branch is set.

Growing touches nothing that was there before but the state that grows (`Store.Keeps`). So a state
stays live while it grows, and nothing else is told of it in between.
-/

namespace TreeEditor

open Event (lives balance creations)

namespace Store

variable {σ σ₁ σ₂ σ' : Store} {g h o : Handle} {name : String}

/-- What was live is live still and, apart from some states, as it was. -/
structure Keeps (σ σ' : Store) (apart : Set Handle) : Prop where
  live : ∀ g, σ.Live g → σ'.Live g
  get? : ∀ g, σ.Live g → g ∉ apart → σ'.get? g = σ.get? g

namespace Keeps

variable {apart : Set Handle}

/-- Nothing need happen. -/
theorem refl (σ : Store) (apart : Set Handle) : σ.Keeps σ apart := ⟨fun _ => id, fun _ _ _ => rfl⟩

/-- What is kept in one step after the other is kept in both. -/
theorem trans (hkeeps : σ.Keeps σ₁ apart) (hkeeps' : σ₁.Keeps σ' apart) : σ.Keeps σ' apart where
  live := fun g hlive => hkeeps'.live g (hkeeps.live g hlive)
  get? := fun g hlive hg =>
    (hkeeps'.get? g (hkeeps.live g hlive) hg).trans (hkeeps.get? g hlive hg)

/-- Less may be asked for. -/
theorem mono {apart' : Set Handle} (hkeeps : σ.Keeps σ' apart) (hsub : apart ⊆ apart') :
    σ.Keeps σ' apart' :=
  ⟨hkeeps.live, fun g hlive hg => hkeeps.get? g hlive fun hmem => hg (hsub hmem)⟩

/-- A branch of a kept state is kept. -/
theorem branch? (hkeeps : σ.Keeps σ' apart) (hlive : σ.Live g) (hg : g ∉ apart) (name : String) :
    σ'.branch? g name = σ.branch? g name := by
  rw [Store.branch?, hkeeps.get? g hlive hg, Store.branch?]

/-- Changing one state keeps the others. -/
theorem modify (σ : Store) (h : Handle) (change : State → State) :
    σ.Keeps (σ.modify h change) {h} where
  live := fun g => (live_modify h g change).mpr
  get? := fun g _ hg => (get?_modify h g change).trans (if_neg hg)

/-- Making a state keeps all others. -/
theorem allocate (htidy : σ.Tidy) {place : Place} (hallocate : σ.allocate place = (h, σ₁)) :
    σ.Keeps σ₁ ∅ := by
  have hget : ∀ g, σ.Live g → σ₁.get? g = σ.get? g := fun g hlive => by
    rw [get?_of_allocate htidy.arena hallocate,
      if_neg (ne_of_allocate htidy.arena hallocate hlive)]
  refine ⟨fun g hlive => ?_, fun g hlive _ => hget g hlive⟩
  obtain ⟨state, hstate⟩ := hlive
  exact ⟨state, (hget g ⟨state, hstate⟩).trans hstate⟩

end Keeps

/-- Events tell of a step, and the step keeps what was there. -/
def Tells (σ σ' : Store) (owed : BranchRef → Int) (apart : Set Handle) : Prop :=
  (∃ events, σ.Accounts σ' events owed) ∧ σ.Keeps σ' apart

end Store

/-- The branches of a state without branches are grown with events that tell of all. -/
def Told (grow : Growth) : Prop :=
  ∀ σ o state σ', σ.Tidy → σ.get? o = some state → state.branches = [] → grow o σ = .ok σ' →
    σ.Tells σ' 0 {o}

namespace Store

variable {σ σ₁ σ₂ σ' : Store} {g h o : Handle} {name : String}

/-- Steps that are told of one after the other are told of together. -/
theorem Tells.trans {owed owed' : BranchRef → Int} {apart : Set Handle}
    (h : σ.Tells σ₁ owed apart) (h' : σ₁.Tells σ' owed' apart) :
    σ.Tells σ' (owed + owed') apart := by
  obtain ⟨⟨events, haccounts⟩, hkeeps⟩ := h
  obtain ⟨⟨events', haccounts'⟩, hkeeps'⟩ := h'
  exact ⟨⟨_, haccounts.trans haccounts'⟩, hkeeps.trans hkeeps'⟩

/-- What is told of leaves a store tidy. -/
theorem Tells.tidy {owed : BranchRef → Int} {apart : Set Handle} (h : σ.Tells σ' owed apart)
    (htidy : σ.Tidy) : σ'.Tidy := by
  obtain ⟨⟨events, haccounts⟩, -⟩ := h
  exact haccounts.tidy htidy

/-- Nothing need be told where nothing happens. -/
theorem Tells.refl (σ : Store) (apart : Set Handle) : σ.Tells σ 0 apart :=
  ⟨⟨[], .refl σ⟩, .refl σ apart⟩

/-- An announcement that tells nothing owes nothing. -/
theorem tells_announce_of_eq {event : Event} (hquiet : event.Quiet)
    (hblocks : ∀ branch, event.blockChange branch = 0) (apart : Set Handle) :
    σ.Tells (σ.announce event) 0 apart :=
  ⟨⟨_, accounts_announce_of_eq hquiet hblocks⟩, fun _ => id, fun _ _ _ => rfl⟩

/-- A state without branches is filled with events that tell of all. -/
theorem tells_fill {growth : Option Growth} (hgrowth : ∀ grow ∈ growth, Told grow)
    (htidy : σ.Tidy) {state : State} (hstate : σ.get? h = some state) (hbare : state.branches = [])
    (hfill : σ.fill h growth = .ok σ') : σ.Tells σ' 0 {h} := by
  cases growth with
  | none =>
    obtain ⟨-, rfl⟩ := enter_eq_ok.mp hfill
    exact ⟨⟨[], accounts_modify_of_inners h _ fun _ => rfl⟩, .modify σ h _⟩
  | some grow =>
    obtain ⟨τ, hgrow, hready⟩ := bind_eq_ok.mp hfill
    obtain ⟨-, rfl⟩ := enter_eq_ok.mp hready
    obtain ⟨⟨events, haccounts⟩, hkeeps⟩ := hgrowth grow rfl σ h state τ htidy hstate hbare hgrow
    have hready : τ.Accounts (τ.setStage h .ready) [] 0 :=
      accounts_modify_of_inners h _ fun _ => rfl
    exact ⟨⟨_, (haccounts.trans hready).congr fun _ => by simp⟩,
      hkeeps.trans (.modify τ h _)⟩

section Raise

variable {place place' : Place} {events : List Event} {τ : Store} (htidy : σ.Tidy)
  (hallocate : σ.allocate place = (h, σ₁)) (hsilent : σ₁.Accounts σ₂ [] 0)

include htidy hallocate hsilent

/-- Where there is room for a state and for what is told of its branches, there is room for one more
use of the cell, and after that for what is told of the branches. -/
theorem room_raise (hroom : σ.Room (.stateCreated place' h :: events ++ [.stateSettled place' h])) :
    σ.used h.index + 1 ≤ 2 ^ 32 ∧ σ₁.Room [] ∧ σ₂.Room events := by
  have hcount : ∀ cell, σ.used cell + (creations cell events + if cell = h.index then 1 else 0) ≤
      2 ^ 32 := by
    intro cell
    have hcell := hroom cell
    simpa [Event.creations_cons, Event.creates, eq_comm] using hcell
  have hone : σ.used h.index + 1 ≤ 2 ^ 32 := by
    have hcell := hcount h.index
    rw [if_pos rfl] at hcell
    omega
  have hmade : σ₁.Room [] := fun cell => by
    have hcell := hcount cell
    rw [used_allocate htidy hallocate hone, Event.creations_nil]
    omega
  refine ⟨hone, hmade, fun cell => ?_⟩
  have hcell := hcount cell
  rw [hsilent.cells hmade, used_allocate htidy hallocate hone, Event.creations_nil]
  omega

/-- The events of a new state stand around those of its branches. -/
theorem accounts_raise (hgrown : (σ₂.announce (.stateCreated place' h)).Accounts τ events 0)
    (hlive : τ.Live h) : σ.Accounts (τ.announce (.stateSettled place' h))
      (.stateCreated place' h :: events ++ [.stateSettled place' h]) 0 := by
  refine ⟨fun _ => ?_, ?_, fun hall cell => ?_, fun hall g => ?_, fun branch => ?_⟩
  · have htidy₂ := hsilent.tidy (tidy_allocate htidy hallocate)
    have htidy₃ := hgrown.tidy (htidy₂.announce _)
    exact htidy₃.announce _
  · have hjournal := hgrown.journal
    have hjournal₁ : σ₁.journal = σ.journal := by
      obtain rfl : (σ.allocate place).2 = σ₁ := by rw [hallocate]
      rfl
    simp only [announce, Array.toList_push] at hjournal ⊢
    rw [hjournal, hsilent.journal, hjournal₁]
    simp
  · obtain ⟨hone, hmade, hrest⟩ := room_raise htidy hallocate hsilent hall
    have hused : τ.used cell = σ₂.used cell + creations cell events := hgrown.cells hrest cell
    change τ.used cell = _
    rw [hused, hsilent.cells hmade, used_allocate htidy hallocate hone]
    simp [Event.creations_cons, Event.creates, eq_comm]
    omega
  · obtain ⟨hone, hmade, hrest⟩ := room_raise htidy hallocate hsilent hall
    have hlife₂ : τ.life g = σ₂.life g ++ lives g events := hgrown.lives hrest g
    have hlife : τ.life g = σ₁.life g ++ lives g events := by
      rw [hlife₂, hsilent.lives hmade, Event.lives_nil, List.append_nil]
    change τ.life g = _
    by_cases hg : g = h
    · -- The state is live before and after its branches are grown: nothing else was told of it.
      subst hg
      have hmadeLive : σ₁.Live g :=
        ⟨_, (get?_of_allocate htidy.arena hallocate g).trans (if_pos rfl)⟩
      have hnothing : lives g events = [] := by
        rw [life_of_live hlive, life_of_live hmadeLive] at hlife
        exact List.self_eq_append_right.mp hlife
      rw [life_of_live hlive, life_allocate_handle htidy hallocate hone]
      simp [Event.lives_cons, Event.life?, hnothing]
    · rw [hlife, life_allocate htidy hallocate hone hg]
      simp [Event.lives_cons, Event.life?, Ne.symm hg]
  · have hblocks : τ.blockCount branch =
        σ₂.blockCount branch + balance branch events + (0 : BranchRef → Int) branch :=
      hgrown.blocks branch
    change τ.blockCount branch = _
    rw [hblocks, hsilent.blocks, blockCount_allocate htidy hallocate]
    simp [Event.balance_cons, Event.blockChange]

end Raise

/-- A state that was just made is settled with events that tell of it and of all under it. Before it
is announced the store may be changed in ways that need no event. -/
theorem accounts_settle {growth : Option Growth} (hgrowth : ∀ grow ∈ growth, Told grow)
    (htidy : σ.Tidy) {place place' : Place} (hallocate : σ.allocate place = (h, σ₁))
    (hsilent : σ₁.Accounts σ₂ [] 0) (hbare : (σ₂.get? h).map State.branches = some [])
    (hsettle : σ₂.settle place' h growth = .ok σ') : ∃ events, σ.Accounts σ' events 0 := by
  obtain ⟨τ, hfill, hannounced⟩ := bind_eq_ok.mp hsettle
  cases hannounced
  obtain ⟨state, hstate, hbranches⟩ := Option.map_eq_some_iff.mp hbare
  have htidy₂ : σ₂.Tidy := hsilent.tidy (tidy_allocate htidy hallocate)
  have htidy₃ : (σ₂.announce (.stateCreated place' h)).Tidy := htidy₂.announce _
  obtain ⟨⟨events, hgrown⟩, hkeeps⟩ := tells_fill hgrowth htidy₃ hstate hbranches hfill
  exact ⟨_, accounts_raise htidy hallocate hsilent hgrown (hkeeps.live h ⟨state, hstate⟩)⟩

/-- Settling a new state keeps what was there. -/
theorem tells_settle {growth : Option Growth} (hgrowth : ∀ grow ∈ growth, Told grow)
    (htidy : σ.Tidy) {place place' : Place} {apart : Set Handle}
    (hallocate : σ.allocate place = (h, σ₁)) (hsilent : σ₁.Accounts σ₂ [] 0)
    (hkeeps : σ₁.Keeps σ₂ apart) (hbare : (σ₂.get? h).map State.branches = some [])
    (hsettle : σ₂.settle place' h growth = .ok σ') : σ.Tells σ' 0 apart := by
  refine ⟨accounts_settle hgrowth htidy hallocate hsilent hbare hsettle, ?_⟩
  obtain ⟨τ, hfill, hannounced⟩ := bind_eq_ok.mp hsettle
  cases hannounced
  obtain ⟨state, hstate, hbranches⟩ := Option.map_eq_some_iff.mp hbare
  have htidy₂ : σ₂.Tidy := hsilent.tidy (tidy_allocate htidy hallocate)
  have hfilled : σ₂.Keeps τ {h} := by
    obtain ⟨-, hlive, hget⟩ := tells_fill hgrowth (σ := σ₂.announce (.stateCreated place' h))
      (htidy₂.announce _) hstate hbranches hfill
    exact ⟨hlive, hget⟩
  have hmade : σ.Keeps σ₂ apart :=
    ((Keeps.allocate htidy hallocate).mono (Set.empty_subset apart)).trans hkeeps
  refine ⟨fun g hlive => hfilled.live g (hmade.live g hlive), fun g hlive hg => ?_⟩
  -- What was live before is not the new state.
  have hne : g ∉ ({h} : Set Handle) := by
    rintro rfl
    exact not_live.mpr (get?_handle_of_allocate htidy.arena hallocate) hlive
  exact (hfilled.get? g (hmade.live g hlive) hne).trans (hmade.get? g hlive hg)

/-- Creating a state is told of and keeps what was there. -/
theorem tells_create {growth : Option Growth} (hgrowth : ∀ grow ∈ growth, Told grow)
    (htidy : σ.Tidy) {place : Place} (hcreate : σ.create place growth = .ok (h, σ')) :
    σ.Tells σ' 0 ∅ := by
  unfold create at hcreate
  cases hallocate : σ.allocate place with
  | mk c σ₁ =>
    rw [hallocate] at hcreate
    obtain ⟨τ, hsettle, hlast⟩ := bind_eq_ok.mp hcreate
    cases hlast
    refine tells_settle hgrowth htidy hallocate (accounts_enroll place h)
      ⟨fun _ => id, fun _ _ _ => rfl⟩ ?_ hsettle
    rw [get?_enroll, get?_of_allocate htidy.arena hallocate, if_pos rfl]
    rfl

/-- States that are created one after the other are told of. -/
theorem tells_createAll {entries : List (Place × Growth)}
    (hgrowth : ∀ entry ∈ entries, Told entry.2) (htidy : σ.Tidy) {handles : List Handle}
    (hcreate : σ.createAll entries = .ok (handles, σ')) :
    σ.Tells σ' 0 ∅ := by
  induction entries generalizing σ handles with
  | nil =>
    cases hcreate
    exact .refl _ ∅
  | cons entry rest ih =>
    obtain ⟨⟨h, σ₁⟩, hfirst, hcreate⟩ := bind_eq_ok.mp hcreate
    obtain ⟨⟨others, σ₂⟩, hrest, hlast⟩ := bind_eq_ok.mp hcreate
    cases hlast
    have htells : σ.Tells σ₁ 0 ∅ := tells_create
      (fun grow hgrow => by cases hgrow; exact hgrowth entry List.mem_cons_self) htidy hfirst
    have hothers := ih (fun other hother => hgrowth other (List.mem_cons_of_mem _ hother))
      (htells.tidy htidy) hrest
    simpa using htells.trans hothers

/-- The members of blocks that are created are told of. Each block is announced and owed. -/
theorem tells_createBlocks {blocks : List (Block (Node × Growth) (Node × Growth))}
    (hgrowth : ∀ block ∈ blocks, ∀ entry ∈ block.members, Told entry.2) (htidy : σ.Tidy)
    {position : Nat} {states : List (Block Node Handle)}
    (hcreate : σ.createBlocks o name position blocks = .ok (states, σ')) :
    σ.Tells σ' (Pi.single ⟨o, name⟩ (-(states.length : Int))) ∅ := by
  -- By induction on the blocks: each new block is owed until the branch that holds it is set.
  induction blocks generalizing σ position states with
  | nil =>
    cases hcreate
    simpa using Tells.refl _ ∅
  | cons block rest ih =>
    obtain ⟨⟨members, σ₁⟩, hmembers, hcreate⟩ := bind_eq_ok.mp hcreate
    obtain ⟨⟨others, σ₂⟩, hrest, hlast⟩ := bind_eq_ok.mp hcreate
    cases hlast
    have hannounced : σ.Tells (σ.announce (.blockCreated ⟨o, name⟩ position))
        (Pi.single ⟨o, name⟩ (-1)) ∅ :=
      ⟨⟨_, accounts_blockCreated _ _⟩, fun _ => id, fun _ _ _ => rfl⟩
    have hblock := tells_createAll (fun entry hentry => by
      obtain ⟨member, hmember, rfl⟩ := List.mem_map.mp hentry
      exact hgrowth block List.mem_cons_self member.1 (List.fst_mem_of_mem_zipIdx hmember))
      (hannounced.tidy htidy) hmembers
    have hothers := ih (fun other hother => hgrowth other (List.mem_cons_of_mem _ hother))
      (hblock.tidy (hannounced.tidy htidy)) hrest
    convert (hannounced.trans hblock).trans hothers using 1
    rw [add_zero, ← Pi.single_add, List.length_cons]
    congr 1
    push_cast
    ring

/-- A state gets its first branch of a name, once the states of the branch have been made. What was
owed for that is settled. -/
theorem tells_setBranch {τ : Store} {owed : BranchRef → Int} (htells : σ.Tells τ owed ∅)
    (hlive : σ.Live o) (hnone : σ.branch? o name = none) {branch : Branch}
    (howed : owed + Pi.single ⟨o, name⟩ branch.blockCount = 0) :
    σ.Tells (τ.setBranch o name branch) 0 {o} ∧ ∀ other, other ≠ name →
      (τ.setBranch o name branch).branch? o other = σ.branch? o other := by
  -- Making the states has left the owner alone.
  have hsame : ∀ name, τ.branch? o name = σ.branch? o name :=
    htells.2.branch? hlive (Set.notMem_empty o)
  have hliveτ : τ.Live o := htells.2.live o hlive
  refine ⟨?_, fun other hother => ?_⟩
  · have hcount : τ.blockCount ⟨o, name⟩ = 0 := by
      rw [blockCount, hsame, hnone]
      rfl
    have hbranch : τ.Tells (τ.setBranch o name branch)
        (Pi.single ⟨o, name⟩ branch.blockCount) {o} := by
      refine ⟨⟨_, (accounts_setBranch hliveτ branch).congr fun site => ?_⟩, .modify τ o _⟩
      rw [hcount, sub_zero]
    rw [← howed]
    exact Tells.trans ⟨htells.1, htells.2.mono (Set.empty_subset _)⟩ hbranch
  · obtain ⟨state, hstate⟩ := hliveτ
    rw [← hsame other, branch?, branch?, get?_setBranch, if_pos rfl, hstate]
    simp [Table.get?_set, hother]

/-- The branch for a property that the state has no branch for is grown and told of. -/
theorem tells_growBranch {property : Property (Node × Growth)}
    (hgrowth : ∀ entry ∈ property.nodes, Told entry.2) (htidy : σ.Tidy) (hlive : σ.Live o)
    (hnone : σ.branch? o name = none) (hgrow : σ.growBranch o name property = .ok σ') :
    σ.Tells σ' 0 {o} ∧ ∀ other, other ≠ name → σ'.branch? o other = σ.branch? o other := by
  cases property with
  | value leaf =>
    cases hgrow
    exact ⟨.refl _ _, fun _ _ => rfl⟩
  | child entry =>
    obtain ⟨⟨c, τ⟩, hcreate, hlast⟩ := bind_eq_ok.mp hgrow
    cases hlast
    refine tells_setBranch (tells_create (fun grow hg => ?_) htidy hcreate) hlive hnone
      (by simp [Branch.blockCount])
    cases hg
    exact hgrowth entry (List.mem_singleton_self entry)
  | optional assigned item =>
    obtain ⟨⟨c, τ⟩, hcreate, hlast⟩ := bind_eq_ok.mp hgrow
    cases hlast
    refine tells_setBranch (tells_create (fun grow hg => ?_) htidy hcreate) hlive hnone
      (by simp [Branch.blockCount])
    cases assigned with
    | false => cases hg
    | true =>
      obtain ⟨entry, rfl, rfl⟩ := Option.map_eq_some_iff.mp hg
      exact hgrowth entry (List.mem_singleton_self entry)
  | list entries =>
    obtain ⟨⟨handles, τ⟩, hcreate, hlast⟩ := bind_eq_ok.mp hgrow
    cases hlast
    refine tells_setBranch (tells_createAll (fun entry hentry => ?_) htidy hcreate) hlive hnone
      (by simp [Branch.blockCount])
    obtain ⟨member, hmember, rfl⟩ := List.mem_map.mp hentry
    exact hgrowth member.1 (List.fst_mem_of_mem_zipIdx hmember)
  | blockList blocks =>
    obtain ⟨⟨states, τ⟩, hcreate, hlast⟩ := bind_eq_ok.mp hgrow
    cases hlast
    -- The list of blocks is announced first; what the blocks owe is settled when the branch is set.
    have hannounced : σ.Tells (σ.announce (.blockListCreated ⟨o, name⟩)) 0 ∅ :=
      tells_announce_of_eq ⟨fun _ => rfl, fun _ => rfl⟩ (fun _ => rfl) ∅
    have hblocks := tells_createBlocks (fun block hblock entry hentry => hgrowth entry ?_)
      (hannounced.tidy htidy) hcreate
    · refine tells_setBranch (hannounced.trans hblocks) hlive hnone ?_
      rw [zero_add, ← Pi.single_add]
      simp [Branch.blockCount]
    · refine List.mem_flatMap.mpr ⟨block, hblock, ?_⟩
      exact List.mem_cons_of_mem _ (List.mem_cons_of_mem _ hentry)

/-- Branches that the state does not have are grown one after the other and told of. -/
theorem tells_growBranches {grammar : Grammar} {found : List (String × Property Node)}
    (hgrowth : ∀ entry ∈ found, ∀ child ∈ entry.2.nodes, Told (grammar.growth child))
    (hnodup : (Table.keys found).Nodup) (htidy : σ.Tidy) (hlive : σ.Live o)
    (hnone : ∀ entry ∈ found, σ.branch? o entry.1 = none)
    (hgrow : found.foldlM (fun σ entry =>
      σ.growBranch o entry.1 (entry.2.map fun child => (child, grammar.growth child))) σ = .ok σ') :
    σ.Tells σ' 0 {o} := by
  induction found generalizing σ with
  | nil =>
    cases hgrow
    exact .refl _ _
  | cons entry rest ih =>
    obtain ⟨σ₁, hfirst, hrest⟩ := bind_eq_ok.mp hgrow
    obtain ⟨hnew, hnodup⟩ := List.nodup_cons.mp hnodup
    obtain ⟨htells, hothers⟩ := tells_growBranch (fun pair hpair => by
      rw [Property.nodes_map] at hpair
      obtain ⟨child, hchild, rfl⟩ := List.mem_map.mp hpair
      exact hgrowth entry List.mem_cons_self child hchild) htidy hlive
      (hnone entry List.mem_cons_self) hfirst
    refine (add_zero (0 : BranchRef → Int)) ▸ htells.trans (ih
      (fun other hother => hgrowth other (List.mem_cons_of_mem _ hother)) hnodup
      (htells.tidy htidy) (htells.2.live o hlive) (fun other hother => ?_) hrest)
    rw [hothers other.1 fun heq => hnew (heq ▸ List.mem_map_of_mem hother)]
    exact hnone other (List.mem_cons_of_mem _ hother)

end Store

/-- A state can only be grown for a node that the grammar can browse. -/
theorem Grammar.exists_branches_of_growth {grammar : Grammar} {node : Node} {o : Handle}
    {σ σ' : Store} (h : grammar.growth node o σ = .ok σ') :
    ∃ found, grammar.branches node = .ok found := by
  cases hfound : grammar.branches node with
  | ok found => exact ⟨found, rfl⟩
  | error fault =>
    cases node with
    | mk kind properties =>
      rw [growth, Node.fold_mk, browse_map_children,
        show grammar.browse kind properties = .error fault from hfound] at h
      cases h

/-- Growing the state of a node is told of. -/
theorem Grammar.told_growth {grammar : Grammar} (hgrammar : grammar.Distinct) {node : Node}
    (hnode : node.WellFormed) : Told (grammar.growth node) := by
  -- By induction on the node: the branches are grown for its children.
  induction node using Node.induct with
  | step node ih =>
    intro σ o state σ' htidy hstate hbare hgrow
    obtain ⟨found, hfound⟩ := exists_branches_of_growth hgrow
    rw [growth_eq hfound] at hgrow
    refine Store.tells_growBranches (fun entry hentry child hchild => ?_)
      (nodup_browse hgrammar.branches hnode.keys hfound) htidy ⟨state, hstate⟩
      (fun entry _ => ?_) hgrow
    · have hproperty := (mem_browse hnode.keys hfound).mp hentry
      exact ih _ (Table.mem_of_get? hproperty.1) child hchild (hnode.property hproperty.1 hchild)
    · rw [Store.branch?, hstate, Option.bind_some, hbare]
      rfl

end TreeEditor
