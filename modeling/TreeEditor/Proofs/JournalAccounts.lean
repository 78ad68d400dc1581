import TreeEditor.Proofs.Store

/-!
# What the journal tells

The events of a store tell how its states came and went. Of one state they tell its life: that it
was created, that it was settled, that it was destroyed. Of a list of blocks they tell each block
that came and each that went. `Store.Accounts` says that some events tell the difference between two
stores: what a state has lived through (`Store.life`) grows by what they tell of it, and the number
of blocks of a branch changes by what they tell of that.

A step of the store that changes blocks is told by an event before or after it. What is not told
yet, or was told too early, is owed: a balance per branch, which adds up along the steps and is
settled at the end of each edit.

A new state is told apart from the earlier ones of its cell by its generation. That fails when the
generations of a cell run out, so states are accounted for as long as there is room for the events
(`Store.Room`): no cell is used more than `2 ^ 32` times.
-/

namespace TreeEditor

/-- What an event may tell of a state. -/
inductive Life where
  | created
  | settled
  | destroyed
deriving DecidableEq

namespace Event

/-- What an event tells of a state. -/
def life? (state : Handle) : Event → Option Life
  | stateCreated _ other => if other = state then some .created else none
  | stateSettled _ other => if other = state then some .settled else none
  | stateDestroyed _ other => if other = state then some .destroyed else none
  | _ => none

/-- By how much an event tells the blocks of a branch to have become more. -/
def blockChange (branch : BranchRef) : Event → Int
  | blockCreated other _ => if other = branch then 1 else 0
  | blockDestroyed other _ => if other = branch then -1 else 0
  | _ => 0

/-- An event tells that a state was created in a cell. -/
def creates (cell : Nat) : Event → Bool
  | stateCreated _ state => state.index = cell
  | _ => false

/-- What events tell of a state, in their order. -/
def lives (state : Handle) (events : List Event) : List Life := events.filterMap (life? state)

/-- By how much events tell the blocks of a branch to have become more. -/
def balance (branch : BranchRef) (events : List Event) : Int :=
  (events.map (blockChange branch)).sum

/-- How often events tell that a state was created in a cell. -/
def creations (cell : Nat) (events : List Event) : Nat := events.countP (creates cell)

/-- An event tells nothing of the life of any state. -/
def Quiet (event : Event) : Prop :=
  (∀ state, event.life? state = none) ∧ ∀ cell, event.creates cell = false

section

variable {state : Handle} {branch : BranchRef} {cell : Nat} {event : Event}
  {events events' : List Event}

@[simp]
theorem lives_nil : lives state [] = [] := rfl

@[simp]
theorem lives_append :
    lives state (events ++ events') = lives state events ++ lives state events' :=
  List.filterMap_append

theorem lives_cons : lives state (event :: events) =
    (event.life? state).toList ++ lives state events := by
  unfold lives
  rw [List.filterMap_cons]
  cases event.life? state <;> rfl

@[simp]
theorem balance_nil : balance branch [] = 0 := rfl

@[simp]
theorem balance_append :
    balance branch (events ++ events') = balance branch events + balance branch events' := by
  simp [balance]

theorem balance_cons :
    balance branch (event :: events) = event.blockChange branch + balance branch events := by
  simp [balance]

@[simp]
theorem creations_nil : creations cell [] = 0 := rfl

@[simp]
theorem creations_append :
    creations cell (events ++ events') = creations cell events + creations cell events' :=
  List.countP_append

theorem creations_cons : creations cell (event :: events) =
    creations cell events + if event.creates cell then 1 else 0 :=
  List.countP_cons

end

end Event

open Event (lives balance creations)

/-- The number of blocks of a branch; one that is no list of blocks has none. -/
def Branch.blockCount : Branch → Int
  | blockList blocks => blocks.length
  | _ => 0

/-! ## Arenas -/

namespace Arena

variable {α : Type} {arena : Arena α} {other : Handle}

/-- The cell of a new value was empty. -/
theorem get?_of_index_insert (h : arena.Sound) {value : α}
    (hindex : other.index = (arena.insert value).1.index) : arena.get? other = none := by
  unfold insert at hindex
  split at hindex
  · rw [get?, hindex, List.getElem?_eq_none le_rfl]
    rfl
  · rename_i index free hfree
    obtain ⟨cell, hcell, hnone⟩ := (h.mem_free index).mp (by simp [hfree])
    rw [get?_of_cell other ((congrArg _ hindex).trans hcell), hnone, ite_self]

end Arena

namespace Store

variable {σ σ₁ σ₂ σ' : Store} {g h : Handle} {events events' : List Event}

/-! ## What a store has lived through -/

/-- What the state of a handle has lived through: a live one was created and settled, and a stale
handle is that of a state which was destroyed after that. -/
def life (σ : Store) (h : Handle) : List Life :=
  if (σ.get? h).isSome then [.created, .settled]
  else if σ.arena.isStale h then [.created, .settled, .destroyed]
  else []

/-- How often a cell has been used, as its generation tells. -/
def used (σ : Store) (cell : Nat) : Nat :=
  (σ.arena.generations[cell]?).elim 0 fun generation => generation.toNat + 1

/-- The number of blocks of a branch of a state. -/
def blockCount (σ : Store) (branch : BranchRef) : Int :=
  (σ.branch? branch.owner branch.property).elim 0 Branch.blockCount

/-- No cell has been used more often than it has generations, and none will be by the creations that
events tell of. -/
def Room (σ : Store) (events : List Event) : Prop :=
  ∀ cell, σ.used cell + creations cell events ≤ 2 ^ 32

/-- New states get handles of their own, no state has two branches of one name, and every branch was
made for the state that keeps it. -/
structure Tidy (σ : Store) : Prop where
  arena : σ.arena.Sound
  keys : ∀ h state, σ.get? h = some state → (Table.keys state.branches).Nodup
  owned : σ.Owned

/-- What is announced is of no account to tidiness. -/
theorem Tidy.announce (htidy : σ.Tidy) (event : Event) : (σ.announce event).Tidy :=
  ⟨htidy.arena, htidy.keys, htidy.owned⟩

/-- The life of a handle depends on the generations of the cells and on whether it is live. -/
theorem life_congr (hgenerations : σ'.arena.generations = σ.arena.generations)
    (hlive : σ'.Live h ↔ σ.Live h) : σ'.life h = σ.life h := by
  have hsome : ∀ τ : Store, τ.Live h ↔ (τ.get? h).isSome = true :=
    fun τ => Option.isSome_iff_exists.symm
  have hnone : ∀ τ : Store, τ.arena.get? h = none ↔ ¬ τ.Live h := fun τ => not_live.symm
  have hstale : σ'.arena.isStale h = σ.arena.isStale h := by
    rw [Bool.eq_iff_iff, Arena.isStale_iff, Arena.isStale_iff, hgenerations, hnone, hnone, hlive]
  have hboth : (σ'.get? h).isSome = (σ.get? h).isSome := by
    rw [Bool.eq_iff_iff, ← hsome, ← hsome, hlive]
  unfold life
  rw [hboth, hstale]

/-- What is live was created and settled. -/
theorem life_of_live (hlive : σ.Live h) : σ.life h = [.created, .settled] :=
  if_pos (Option.isSome_iff_exists.mpr hlive)

/-! ## Accounts -/

/-- Events tell the difference between two stores. The numbers of blocks may be off by what is owed;
the states are told as long as there is room. -/
structure Accounts (σ σ' : Store) (events : List Event) (owed : BranchRef → Int) : Prop where
  tidy : σ.Tidy → σ'.Tidy
  journal : σ'.journal.toList = σ.journal.toList ++ events
  cells : σ.Room events → ∀ cell, σ'.used cell = σ.used cell + creations cell events
  lives : σ.Room events → ∀ h, σ'.life h = σ.life h ++ Event.lives h events
  blocks : ∀ branch,
    σ'.blockCount branch = σ.blockCount branch + balance branch events + owed branch

namespace Accounts

variable {owed owed' : BranchRef → Int}

/-- Nothing happened and nothing is told. -/
theorem refl (σ : Store) : σ.Accounts σ [] 0 where
  tidy := id
  journal := by simp
  cells := fun _ cell => by simp
  lives := fun _ h => by simp
  blocks := fun branch => by simp

/-- What is told of one step after the other is told of both; what is owed adds up. -/
theorem trans (h : σ.Accounts σ₁ events owed) (h' : σ₁.Accounts σ' events' owed') :
    σ.Accounts σ' (events ++ events') (owed + owed') := by
  -- The first step uses the room that its events tell of, and leaves the rest to the second one.
  have hroom : σ.Room (events ++ events') → σ.Room events ∧ σ₁.Room events' := by
    intro hroom
    have hfirst : σ.Room events := fun cell => by
      have := hroom cell
      rw [Event.creations_append] at this
      omega
    refine ⟨hfirst, fun cell => ?_⟩
    have := hroom cell
    rw [Event.creations_append] at this
    rw [h.cells hfirst]
    omega
  refine ⟨h'.tidy ∘ h.tidy, ?_, fun hboth cell => ?_, fun hboth g => ?_, fun branch => ?_⟩
  · rw [h'.journal, h.journal, List.append_assoc]
  · obtain ⟨hfirst, hsecond⟩ := hroom hboth
    rw [h'.cells hsecond, h.cells hfirst, Event.creations_append, Nat.add_assoc]
  · obtain ⟨hfirst, hsecond⟩ := hroom hboth
    rw [h'.lives hsecond, h.lives hfirst, Event.lives_append, List.append_assoc]
  · rw [h'.blocks, h.blocks, Event.balance_append, Pi.add_apply]
    ring

/-- What is owed may be reckoned in another way. -/
theorem congr (h : σ.Accounts σ' events owed) (howed : ∀ branch, owed branch = owed' branch) :
    σ.Accounts σ' events owed' :=
  (funext howed : owed = owed') ▸ h

end Accounts

/-- Only a live state has a branch. -/
theorem live_of_branch? {name : String} {branch : Branch}
    (hbranch : σ.branch? h name = some branch) : σ.Live h := by
  obtain ⟨state, hstate, -⟩ := Option.bind_eq_some_iff.mp hbranch
  exact ⟨state, hstate⟩

/-! ## Steps without events -/

/-- A step that leaves the arena its generations and the same states live needs no event, but for
the blocks. -/
theorem accounts_of_silent (htidy : σ.Tidy → σ'.Tidy) (hjournal : σ'.journal = σ.journal)
    (hgenerations : σ'.arena.generations = σ.arena.generations)
    (hlive : ∀ h, σ'.Live h ↔ σ.Live h) :
    σ.Accounts σ' [] fun branch => σ'.blockCount branch - σ.blockCount branch where
  tidy := htidy
  journal := by rw [hjournal, List.append_nil]
  cells := fun _ cell => by rw [used, hgenerations]; rfl
  lives := fun _ h => by rw [life_congr hgenerations (hlive h), Event.lives_nil, List.append_nil]
  blocks := fun branch => by rw [Event.balance_nil]; ring

/-- A change of a state that keeps the names of its branches distinct, and their owner, needs no
event, but for the blocks. -/
theorem accounts_modify (h : Handle) (change : State → State)
    (hkeys : ∀ state, (Table.keys state.branches).Nodup →
      (Table.keys (change state).branches).Nodup)
    (howned : ∀ state, state.OwnedBy h → (change state).OwnedBy h) :
    σ.Accounts (σ.modify h change) []
      fun branch => (σ.modify h change).blockCount branch - σ.blockCount branch := by
  refine accounts_of_silent (fun htidy => ⟨htidy.arena.modify h change, fun g state hstate => ?_,
    htidy.owned.modify howned⟩) rfl (Arena.generations_modify h change) fun g =>
      live_modify h g change
  rw [get?_modify] at hstate
  split at hstate
  · obtain ⟨state', hstate', rfl⟩ := Option.map_eq_some_iff.mp hstate
    exact hkeys state' (htidy.keys h state' hstate')
  · exact htidy.keys g state hstate

/-- A change of a state that leaves its branches needs no event. -/
theorem accounts_modify_of_inners (h : Handle) (change : State → State)
    (hinners : ∀ state, (change state).inners = state.inners) :
    σ.Accounts (σ.modify h change) [] 0 := by
  have hbranches : ∀ state, (change state).branches = state.branches := fun state => by
    rw [State.branches, hinners, State.branches]
  have howned : ∀ state : State, state.OwnedBy h → (change state).OwnedBy h := by
    intro state hstate
    rwa [State.OwnedBy, hinners]
  refine (accounts_modify h change (fun state => by rw [hbranches]; exact id) howned).congr
    fun branch => ?_
  have hsame : ∀ name, (σ.modify h change).branch? branch.owner name =
      σ.branch? branch.owner name := by
    intro name
    rw [branch?, get?_modify, branch?]
    split
    · rename_i heq
      rw [heq]
      cases σ.get? h <;> simp [hbranches]
    · rfl
  rw [blockCount, blockCount, hsame, sub_self]
  rfl

/-- A branch is set; the difference in blocks is owed. -/
theorem accounts_setBranch {name : String} (hlive : σ.Live h) (branch : Branch) :
    σ.Accounts (σ.setBranch h name branch) []
      (Pi.single ⟨h, name⟩ (branch.blockCount - σ.blockCount ⟨h, name⟩)) := by
  refine (accounts_modify h _ (fun state hkeys => by
    rw [State.branches_setBranch]
    exact Table.nodup_keys_set hkeys branch) fun _ howned => howned.setBranch name branch).congr
    fun site => ?_
  change (σ.setBranch h name branch).blockCount site - σ.blockCount site = _
  -- No branch but the one that is set has become another one.
  by_cases hsite : site = ⟨h, name⟩
  · subst hsite
    rw [Pi.single_eq_same, blockCount, branch?_setBranch hlive, Option.elim_some]
  · rw [Pi.single_eq_of_ne hsite, sub_eq_zero, blockCount, blockCount, branch?, get?_setBranch]
    split
    · rename_i howner
      obtain ⟨owner, property⟩ := site
      obtain rfl : owner = h := howner
      have hname : property ≠ name := fun heq => hsite (heq ▸ rfl)
      rw [branch?]
      cases σ.get? owner with
      | none => rfl
      | some state => simp [Table.get?_set, hname]
    · rfl

/-- A branch is set to one with as many blocks as the one that was there. -/
theorem accounts_setBranch_of_eq {name : String} {old new : Branch}
    (hbranch : σ.branch? h name = some old) (hcount : new.blockCount = old.blockCount) :
    σ.Accounts (σ.setBranch h name new) [] 0 := by
  refine (accounts_setBranch (live_of_branch? hbranch) new).congr fun site => ?_
  rw [show σ.blockCount ⟨h, name⟩ = old.blockCount by rw [blockCount, hbranch]; rfl, hcount,
    sub_self, Pi.single_zero]

/-- A change of the register needs no event. -/
theorem accounts_register (register : Table Place Handle) :
    σ.Accounts { σ with register } [] 0 where
  tidy := fun htidy => ⟨htidy.arena, htidy.keys, htidy.owned⟩
  journal := (List.append_nil _).symm
  cells := fun _ _ => rfl
  lives := fun _ _ => (List.append_nil _).symm
  blocks := fun branch => by
    change σ.blockCount branch = σ.blockCount branch + 0 + 0
    ring

/-- Registering a place needs no event. -/
theorem accounts_enroll (place : Place) (h : Handle) : σ.Accounts (σ.enroll place h) [] 0 :=
  accounts_register _

/-! ## Events -/

/-- An event that tells of blocks is announced ahead of the change or after it. -/
theorem accounts_announce {event : Event} (hquiet : event.Quiet) :
    σ.Accounts (σ.announce event) [event] fun branch => - event.blockChange branch where
  tidy := fun htidy => htidy.announce event
  journal := by simp [announce]
  cells := fun _ cell => by simp [Event.creations_cons, hquiet.2]; rfl
  lives := fun _ h => by simp [Event.lives_cons, hquiet.1]; rfl
  blocks := fun branch => by
    rw [Event.balance_cons, Event.balance_nil]
    change σ.blockCount branch = _
    ring

/-- An event that tells neither of lives nor of blocks. -/
theorem accounts_announce_of_eq {event : Event} (hquiet : event.Quiet)
    (hblocks : ∀ branch, event.blockChange branch = 0) :
    σ.Accounts (σ.announce event) [event] 0 :=
  (accounts_announce hquiet).congr fun branch => by rw [hblocks]; rfl

/-- Announcing a block that is not there yet owes it to its branch. -/
theorem accounts_blockCreated (site : BranchRef) (block : Nat) :
    σ.Accounts (σ.announce (.blockCreated site block)) [.blockCreated site block]
      (Pi.single site (-1)) :=
  (accounts_announce ⟨fun _ => rfl, fun _ => rfl⟩).congr fun branch => by
    rw [Pi.single_apply]
    by_cases heq : branch = site
    · simp [Event.blockChange, heq]
    · simp [Event.blockChange, heq, Ne.symm heq]

/-- Announcing that a block is gone settles it. -/
theorem accounts_blockDestroyed (site : BranchRef) (block : Nat) :
    σ.Accounts (σ.announce (.blockDestroyed site block)) [.blockDestroyed site block]
      (Pi.single site 1) :=
  (accounts_announce ⟨fun _ => rfl, fun _ => rfl⟩).congr fun branch => by
    rw [Pi.single_apply]
    by_cases heq : branch = site
    · simp [Event.blockChange, heq]
    · simp [Event.blockChange, heq, Ne.symm heq]

/-! ## New states -/

section New

variable {place : Place} (htidy : σ.Tidy) (hallocate : σ.allocate place = (h, σ₁))

include htidy hallocate

/-- The handles of a cell have the generations from zero on, as long as there is room. -/
theorem generation_allocate (hroom : σ.used h.index + 1 ≤ 2 ^ 32) :
    h.generation.toNat = σ.used h.index := by
  obtain rfl : (σ.allocate place).1 = h := by rw [hallocate]
  have hgeneration : (σ.allocate place).1.generation = _ :=
    Arena.generation_insert htidy.arena (⟨place, .created, []⟩ : State)
  change _ = (σ.arena.generations[(σ.allocate place).1.index]?).elim 0 (· + 1) at hgeneration
  unfold used at hroom ⊢
  rw [hgeneration]
  cases hcell : σ.arena.generations[(σ.allocate place).1.index]? with
  | none => rfl
  | some generation =>
    rw [hcell] at hroom
    simp only [Option.elim_some] at hroom ⊢
    rw [UInt32.toNat_add]
    have := UInt32.toNat_one
    omega

/-- The cell of a new state is of the generation of its handle, the others are of theirs. -/
theorem getElem?_generations_allocate (cell : Nat) : σ₁.arena.generations[cell]? =
    if cell = h.index then some h.generation else σ.arena.generations[cell]? := by
  obtain rfl : (σ.allocate place).1 = h := by rw [hallocate]
  obtain rfl : (σ.allocate place).2 = σ₁ := by rw [hallocate]
  exact Arena.getElem?_generations_insert htidy.arena _ cell

/-- A new state uses its cell once more. -/
theorem used_allocate (hroom : σ.used h.index + 1 ≤ 2 ^ 32) (cell : Nat) :
    σ₁.used cell = σ.used cell + if cell = h.index then 1 else 0 := by
  rw [used, getElem?_generations_allocate htidy hallocate]
  split
  · rename_i heq
    rw [heq, Option.elim_some, generation_allocate htidy hallocate hroom]
  · rfl

/-- The handle of a new state has no life behind it. -/
theorem life_allocate_handle (hroom : σ.used h.index + 1 ≤ 2 ^ 32) : σ.life h = [] := by
  have hgeneration := generation_allocate htidy hallocate hroom
  have hfresh : ¬ σ.arena.isStale h = true := by
    rw [Arena.isStale_iff]
    rintro ⟨generation, hcell, hbefore⟩
    rw [used, hcell, Option.elim_some] at hgeneration
    rcases hbefore with hlt | ⟨heq, -⟩
    · rw [UInt32.lt_iff_toNat_lt] at hlt
      omega
    · rw [heq] at hgeneration
      omega
  rw [life, get?_handle_of_allocate htidy.arena hallocate, Option.isSome_none,
    if_neg Bool.false_ne_true, if_neg hfresh]

/-- A new state changes the life of its handle alone. -/
theorem life_allocate (hroom : σ.used h.index + 1 ≤ 2 ^ 32) (hg : g ≠ h) :
    σ₁.life g = σ.life g := by
  have hget : σ₁.get? g = σ.get? g := by rw [get?_of_allocate htidy.arena hallocate, if_neg hg]
  have hstale : σ₁.arena.isStale g = σ.arena.isStale g := by
    rw [Bool.eq_iff_iff, Arena.isStale_iff, Arena.isStale_iff,
      show σ₁.arena.get? g = σ.arena.get? g from hget,
      getElem?_generations_allocate htidy hallocate]
    split
    · -- In the cell of the new state, the earlier handles are those of the earlier generations.
      rename_i heq
      have hempty : σ.arena.get? g = none := by
        obtain rfl : (σ.allocate place).1 = h := by rw [hallocate]
        exact Arena.get?_of_index_insert htidy.arena heq
      have hgeneration := generation_allocate htidy hallocate hroom
      have hne : g.generation.toNat ≠ h.generation.toNat := by
        intro hsame
        rw [UInt32.toNat_inj] at hsame
        exact hg (by cases g; exact congrArg₂ Handle.mk heq hsame)
      rw [used, ← heq] at hgeneration
      cases hcell : σ.arena.generations[g.index]? with
      | none =>
        rw [hcell, Option.elim_none] at hgeneration
        simp only [Option.some.injEq, exists_eq_left', hempty, and_true, reduceCtorEq, false_and,
          exists_const, iff_false]
        rw [UInt32.lt_iff_toNat_lt, ← UInt32.toNat_inj]
        omega
      | some generation =>
        rw [hcell, Option.elim_some] at hgeneration
        simp only [Option.some.injEq, exists_eq_left', hempty, and_true]
        rw [UInt32.lt_iff_toNat_lt, UInt32.lt_iff_toNat_lt, ← UInt32.toNat_inj,
          ← UInt32.toNat_inj]
        omega
    · rfl
  rw [life, life, hget, hstale]

/-- A new state has no blocks. -/
theorem blockCount_allocate (branch : BranchRef) : σ₁.blockCount branch = σ.blockCount branch := by
  unfold blockCount branch?
  rw [get?_of_allocate htidy.arena hallocate]
  split
  · rename_i heq
    rw [heq, get?_handle_of_allocate htidy.arena hallocate]
    rfl
  · rfl

/-- A new state keeps a store tidy. -/
theorem tidy_allocate : σ₁.Tidy where
  arena := sound_of_allocate htidy.arena hallocate
  keys := fun g state hstate => by
    rw [get?_of_allocate htidy.arena hallocate] at hstate
    split at hstate
    · cases hstate
      exact List.nodup_nil
    · exact htidy.keys g state hstate
  owned := .of_allocate htidy.arena hallocate htidy.owned

end New

end Store

end TreeEditor
