import TreeEditor.Proofs.RemovalEvents
import TreeEditor.Store.Replay

/-!
# Replayed events tell of all states

Replaying the creation of a state tells of it and of everything under it: that each state was
created and settled, once, and how many blocks each of its branches has. `Store.Covers` says so of
the events for some states. Those for states that have nothing below both of them add up
(`Covers.append`), and the children of a state are such, so the recursion is followed level by
level. That its bound is never met is seen as for removals: no way up is as long as there are
states.
-/

namespace TreeEditor

open Event (lives balance)

namespace Store

variable {σ : Store} {g h o : Handle} {events events' : List Event} {owed owed' : BranchRef → Int}

/-- Steps for the items of a list give their events one after the other. -/
theorem eventsOfAll_cons {α : Type} {step : α → Except Failure (List Event)} {item : α}
    {rest : List α} (hitem : step item = .ok events) (hrest : eventsOfAll step rest = .ok events') :
    eventsOfAll step (item :: rest) = .ok (events ++ events') := by
  obtain ⟨results, hresults, hlast⟩ := bind_eq_ok.mp hrest
  cases hlast
  rw [eventsOfAll, List.mapM_cons, hitem, ok_bind, hresults]
  simp

/-- The inners of a state that owns its branches tell what its branches tell. -/
theorem eventsOfAll_inners {state : State} (howned : state.OwnedBy h)
    (tell : BranchRef → Branch → Except Failure (List Event)) :
    eventsOfAll (fun (property, inner) => tell ⟨inner.owner, property⟩ inner.branch) state.inners =
      eventsOfAll (fun (property, branch) => tell ⟨h, property⟩ branch) state.branches := by
  rw [howned.inners_eq, eventsOfAll, List.mapM_map]
  rfl

/-- Events tell of some states and of everything under them, and of further blocks. -/
structure Covers (σ : Store) (roots : List Handle) (events : List Event)
    (owed : BranchRef → Int) : Prop where
  told : ∀ d ∈ roots, ∀ g, σ.Under d g → lives g events = [.created, .settled]
  untold : ∀ g, (∀ d ∈ roots, ¬ σ.Under d g) → lives g events = []
  counted : ∀ d ∈ roots, ∀ branch, σ.Under d branch.owner →
    balance branch events = owed branch + σ.blockCount branch
  uncounted : ∀ branch, (∀ d ∈ roots, ¬ σ.Under d branch.owner) →
    balance branch events = owed branch

namespace Covers

variable {roots roots' : List Handle}

/-- What is owed may be reckoned in another way. -/
theorem congr (h : σ.Covers roots events owed) (howed : ∀ branch, owed branch = owed' branch) :
    σ.Covers roots events owed' :=
  (funext howed : owed = owed') ▸ h

/-- Of no states nothing need be told. -/
theorem nil (σ : Store) : σ.Covers [] [] 0 where
  told := nofun
  untold := fun _ _ => rfl
  counted := nofun
  uncounted := fun _ _ => rfl

/-- What is told of some states and of others is told of all of them, if nothing is below states of
both. -/
theorem append (h : σ.Covers roots events owed) (h' : σ.Covers roots' events' owed')
    (hapart : ∀ d ∈ roots, ∀ c ∈ roots', ∀ g, σ.Under d g → ¬ σ.Under c g) :
    σ.Covers (roots ++ roots') (events ++ events') (owed + owed') where
  -- What one list tells of a state the other is silent about, as nothing is below states of both.
  told := fun d hd g hunder => by
    rw [Event.lives_append]
    rcases List.mem_append.mp hd with hd | hd
    · rw [h.told d hd g hunder, h'.untold g fun c hc => hapart d hd c hc g hunder,
        List.append_nil]
    · rw [h.untold g fun c hc hunder' => hapart c hc d hd g hunder' hunder,
        h'.told d hd g hunder, List.nil_append]
  untold := fun g hg => by
    rw [Event.lives_append, h.untold g fun d hd => hg d (List.mem_append_left _ hd),
      h'.untold g fun d hd => hg d (List.mem_append_right _ hd), List.append_nil]
  counted := fun d hd branch hunder => by
    rw [Event.balance_append, Pi.add_apply]
    rcases List.mem_append.mp hd with hd | hd
    · rw [h.counted d hd branch hunder,
        h'.uncounted branch fun c hc => hapart d hd c hc branch.owner hunder]
      ring
    · rw [h.uncounted branch fun c hc hunder' => hapart c hc d hd branch.owner hunder' hunder,
        h'.counted d hd branch hunder]
      ring
  uncounted := fun branch hbranch => by
    rw [Event.balance_append, Pi.add_apply,
      h.uncounted branch fun d hd => hbranch d (List.mem_append_left _ hd),
      h'.uncounted branch fun d hd => hbranch d (List.mem_append_right _ hd)]

/-- An event ahead that tells of a block only. -/
theorem cons (h : σ.Covers roots events owed) {event : Event} (hquiet : event.Quiet) :
    σ.Covers roots (event :: events) (event.blockChange + owed) where
  told := fun d hd g hunder => by
    rw [Event.lives_cons, hquiet.1, h.told d hd g hunder]
    rfl
  untold := fun g hg => by
    rw [Event.lives_cons, hquiet.1, h.untold g hg]
    rfl
  counted := fun d hd branch hunder => by
    rw [Event.balance_cons, h.counted d hd branch hunder, Pi.add_apply, add_assoc]
  uncounted := fun branch hbranch => by
    rw [Event.balance_cons, h.uncounted branch hbranch]
    rfl

end Covers

/-! ## The events of a branch -/

section Branches

variable {replay : Handle → Except Failure (List Event)}

/-- Of states that have nothing below two of them each is told of. -/
structure Telling (σ : Store) (replay : Handle → Except Failure (List Event))
    (all : List Handle) : Prop where
  told : ∀ d ∈ all, ∃ events, replay d = .ok events ∧ σ.Covers [d] events 0
  apart : ∀ d ∈ all, ∀ c ∈ all, d ≠ c → ∀ g, σ.Under d g → ¬ σ.Under c g

namespace Telling

/-- Fewer states may be told of. -/
theorem mono {all some' : List Handle} (h : σ.Telling replay all) (hsub : some' ⊆ all) :
    σ.Telling replay some' :=
  ⟨fun d hd => h.told d (hsub hd), fun d hd c hc => h.apart d (hsub hd) c (hsub hc)⟩

/-- Nothing is below states of both parts of a list without repetition. -/
theorem apart_append {all all' : List Handle} (h : σ.Telling replay (all ++ all'))
    (hnodup : (all ++ all').Nodup) :
    ∀ d ∈ all, ∀ c ∈ all', ∀ g, σ.Under d g → ¬ σ.Under c g := fun d hd c hc =>
  h.apart d (List.mem_append_left _ hd) c (List.mem_append_right _ hc)
    ((List.nodup_append.mp hnodup).2.2 d hd c hc)

/-- The states of a list are told of. -/
theorem handles {all : List Handle} (h : σ.Telling replay all) (hnodup : all.Nodup) :
    ∃ events, eventsOfAll replay all = .ok events ∧ σ.Covers all events 0 := by
  induction all with
  | nil => exact ⟨[], rfl, .nil σ⟩
  | cons d rest ih =>
    obtain ⟨events, hfirst, hcovers⟩ := h.told d List.mem_cons_self
    obtain ⟨events', hrest, hcovers'⟩ :=
      ih (h.mono (List.subset_cons_self d rest)) (List.nodup_cons.mp hnodup).2
    refine ⟨events ++ events', eventsOfAll_cons hfirst hrest, ?_⟩
    have hapart : ∀ d' ∈ [d], ∀ c ∈ rest, ∀ g, σ.Under d' g → ¬ σ.Under c g :=
      h.apart_append hnodup
    simpa using hcovers.append hcovers' hapart

/-- The members of blocks are told of, and the blocks themselves. -/
theorem blocks (site : BranchRef) {blocks : List (Block Node Handle)}
    (h : σ.Telling replay (blocks.flatMap Block.members))
    (hnodup : (blocks.flatMap Block.members).Nodup) (position : Nat) :
    ∃ events, eventsOfAll (fun (block, position) => do
        return .blockCreated site position :: (← eventsOfAll replay block.members))
        (blocks.zipIdx position) = .ok events ∧
      σ.Covers (blocks.flatMap Block.members) events (Pi.single site (blocks.length : Int)) := by
  -- By induction on the blocks: each tells of its own end and of members no other block has.
  induction blocks generalizing position with
  | nil => exact ⟨[], rfl, by simpa using .nil σ⟩
  | cons block rest ih =>
    rw [List.flatMap_cons] at h hnodup
    obtain ⟨events, hmembers, hcovers⟩ := (h.mono (List.subset_append_left _ _)).handles
      (List.nodup_append.mp hnodup).1
    obtain ⟨events', hrest, hcovers'⟩ := ih (h.mono (List.subset_append_right _ _))
      (List.nodup_append.mp hnodup).2.1 (position + 1)
    have hblock : σ.Covers block.members (.blockCreated site position :: events) _ :=
      hcovers.cons ⟨fun _ => rfl, fun _ => rfl⟩
    refine ⟨.blockCreated site position :: events ++ events', ?_, ?_⟩
    · rw [List.zipIdx_cons]
      refine eventsOfAll_cons ?_ hrest
      dsimp only
      rw [hmembers]
      rfl
    · rw [List.flatMap_cons]
      refine (hblock.append hcovers' (h.apart_append hnodup)).congr fun branch => ?_
      by_cases hsite : branch = site
      · subst hsite
        simp [Event.blockChange, add_comm]
      · simp [Event.blockChange, hsite, Ne.symm hsite]

/-- The states of a branch are told of, and its blocks. -/
theorem branch (site : BranchRef) {branch : Branch} (h : σ.Telling replay branch.children)
    (hnodup : branch.children.Nodup) :
    ∃ events, branchCreation replay site branch = .ok events ∧
      σ.Covers branch.children events (Pi.single site branch.blockCount) := by
  cases branch with
  | blockList states =>
    have hmembers : (Branch.blockList states).children = states.flatMap Block.members :=
      map_snd_blockSlots states
    rw [hmembers] at h hnodup ⊢
    obtain ⟨events, hevents, hcovers⟩ := h.blocks site hnodup 0
    refine ⟨.blockListCreated site :: events, ?_, ?_⟩
    · rw [branchCreation, hevents]
      rfl
    · have hall : σ.Covers _ (.blockListCreated site :: events) _ :=
        hcovers.cons ⟨fun _ => rfl, fun _ => rfl⟩
      exact hall.congr fun branch => zero_add _
  | placeholder child => simpa [branchCreation, Branch.blockCount] using h.handles hnodup
  | optional child => simpa [branchCreation, Branch.blockCount] using h.handles hnodup
  | list children => simpa [branchCreation, Branch.blockCount] using h.handles hnodup

/-- The states of all branches are told of, and the blocks. -/
theorem branches {branches : List (String × Branch)} (hkeys : (Table.keys branches).Nodup)
    (h : σ.Telling replay (branches.flatMap fun entry => entry.2.children))
    (hnodup : (branches.flatMap fun entry => entry.2.children).Nodup) :
    ∃ events, eventsOfAll (fun (property, branch) => branchCreation replay ⟨o, property⟩ branch)
        branches = .ok events ∧
      σ.Covers (branches.flatMap fun entry => entry.2.children) events (tableCount o branches) := by
  induction branches with
  | nil => exact ⟨[], rfl, (Covers.nil σ).congr fun branch => by simp [tableCount, Table.get?]⟩
  | cons entry rest ih =>
    rw [List.flatMap_cons] at h hnodup
    obtain ⟨hnew, hkeys⟩ := List.nodup_cons.mp hkeys
    obtain ⟨events, hbranch, hcovers⟩ := (h.mono (List.subset_append_left _ _)).branch
      ⟨o, entry.1⟩ (List.nodup_append.mp hnodup).1
    obtain ⟨events', hrest, hcovers'⟩ := ih hkeys (h.mono (List.subset_append_right _ _))
      (List.nodup_append.mp hnodup).2.1
    refine ⟨events ++ events', eventsOfAll_cons hbranch hrest, ?_⟩
    rw [List.flatMap_cons, tableCount_cons hnew]
    exact hcovers.append hcovers' (h.apart_append hnodup)

end Telling

end Branches

/-- Of a state is told when its creation is announced, what is under it is told of, and it is
announced that it is settled. -/
theorem Covers.state {place : Place} {children : List Handle} {branches : List (String × Branch)}
    (hcovers : σ.Covers children events (tableCount h branches))
    (hbelow : ∀ g, σ.Under h g ↔ g = h ∨ ∃ c ∈ children, σ.Under c g)
    (habove : ∀ c ∈ children, ¬ σ.Under c h)
    (hcount : ∀ name, σ.blockCount ⟨h, name⟩ = tableCount h branches ⟨h, name⟩) :
    σ.Covers [h] (.stateCreated place h :: events ++ [.stateSettled place h]) 0 where
  told := fun d hd g hunder => by
    obtain rfl := List.mem_singleton.mp hd
    rw [List.cons_append, Event.lives_cons, Event.lives_append, Event.lives_cons, Event.lives_nil]
    by_cases hg : g = d
    · subst hg
      rw [hcovers.untold g habove]
      simp [Event.life?]
    · obtain ⟨c, hc, hunder⟩ := ((hbelow g).mp hunder).resolve_left hg
      rw [hcovers.told c hc g hunder]
      simp [Event.life?, Ne.symm hg]
  untold := fun g hg => by
    have hout := (hbelow g).not.mp (hg h (List.mem_singleton.mpr rfl))
    obtain ⟨hne, hnone⟩ := not_or.mp hout
    rw [List.cons_append, Event.lives_cons, Event.lives_append, Event.lives_cons, Event.lives_nil,
      hcovers.untold g fun c hc hunder => hnone ⟨c, hc, hunder⟩]
    simp [Event.life?, Ne.symm hne]
  counted := fun d hd branch hunder => by
    obtain rfl := List.mem_singleton.mp hd
    rw [List.cons_append, Event.balance_cons, Event.balance_append, Event.balance_cons,
      Event.balance_nil]
    obtain ⟨owner, name⟩ := branch
    by_cases howner : owner = d
    · subst howner
      rw [hcovers.uncounted ⟨owner, name⟩ habove, hcount]
      simp [Event.blockChange]
    · obtain ⟨c, hc, hunder⟩ := ((hbelow owner).mp hunder).resolve_left howner
      rw [hcovers.counted c hc ⟨owner, name⟩ hunder]
      simp [Event.blockChange, tableCount, howner]
  uncounted := fun branch hbranch => by
    have hout := (hbelow branch.owner).not.mp (hbranch h (List.mem_singleton.mpr rfl))
    obtain ⟨hne, hnone⟩ := not_or.mp hout
    rw [List.cons_append, Event.balance_cons, Event.balance_append, Event.balance_cons,
      Event.balance_nil, hcovers.uncounted branch fun c hc hunder => hnone ⟨c, hc, hunder⟩]
    simp [Event.blockChange, tableCount, hne]

end Store

namespace Standing

variable {grammar : Grammar} {root h : Handle} {σ : Store} {ν : Handle → Option Node}
  {U : Set Handle} {path : Path}

/-- Replaying the creation of a state tells of it and of everything under it. -/
theorem covers_creationWithin (hσ : Standing grammar root σ ν ∅ U) (generations : Nat)
    (hclimbs : σ.Climbs h path) (hgenerations : σ.arena.occupied ≤ generations + path.length) :
    ∃ events, σ.creationWithin generations h = .ok events ∧ σ.Covers [h] events 0 := by
  -- Each generation less is one step further down.
  induction generations generalizing h path with
  | zero =>
    have hlt := hclimbs.length_lt
    omega
  | succ generations ih =>
    obtain ⟨state, hstate⟩ := hclimbs.live
    have hopen : h ∉ (∅ : Set Handle) := Set.notMem_empty h
    have hchildren : ∀ d ∈ state.branches.flatMap fun entry => entry.2.children,
        ∃ name slot, σ.place? d = some (.within h name slot) :=
      fun d hd => hσ.place?_of_child hstate hopen hd
    -- The children stand in different slots of one state, so nothing is below two of them.
    have htelling : σ.Telling (σ.creationWithin generations)
        (state.branches.flatMap fun entry => entry.2.children) := by
      refine ⟨fun d hd => ?_, fun d hd c hc hne g hunder hunder' => hne ?_⟩
      · obtain ⟨name, slot, hplace⟩ := hchildren d hd
        exact ih (.within hplace hclimbs) (by simp; omega)
      · obtain ⟨name, slot, hplace⟩ := hchildren d hd
        obtain ⟨name', slot', hplace'⟩ := hchildren c hc
        exact Store.eq_of_under_both hplace (.within hplace hclimbs) hplace'
          (.within hplace' hclimbs) hunder hunder'
    obtain ⟨events, hevents, hcovers⟩ := htelling.branches
      (hσ.settled h state hstate hopen).keys (hσ.nodup_children hstate hopen)
    refine ⟨.stateCreated state.place h :: events ++ [.stateSettled state.place h], ?_,
      hcovers.state (fun g => ⟨fun hunder => ?_, ?_⟩) (fun c hc => ?_) fun name => ?_⟩
    · rw [Store.creationWithin, Store.expect_eq_ok.mpr hstate, ok_bind,
        Store.eventsOfAll_inners (hσ.owned h state hstate)
          (Store.branchCreation (σ.creationWithin generations)), hevents]
      rfl
    · rcases hunder.eq_or_child with heq | ⟨child, name, slot, hplace, hunder⟩
      · exact .inl heq
      · obtain ⟨branch, hbranch, hchild⟩ :=
          (hσ.linked h ⟨state, hstate⟩ hopen name slot child).mp hplace
        rw [Store.branch?, hstate] at hbranch
        exact .inr ⟨child, List.mem_flatMap.mpr ⟨_, Table.mem_of_get? hbranch,
          Branch.mem_children.mpr ⟨slot, hchild⟩⟩, hunder⟩
    · rintro (rfl | ⟨c, hc, hunder⟩)
      · exact .refl
      · obtain ⟨name, slot, hplace⟩ := hchildren c hc
        exact Store.Under.trans (.within hplace .refl) hunder
    · obtain ⟨name, slot, hplace⟩ := hchildren c hc
      exact Store.not_under_parent (.within hplace hclimbs) hplace
    · rw [Store.blockCount, Store.branch?, hstate, Store.tableCount, if_pos rfl, Option.bind_some]

/-- Whatever has a way up is under the root. -/
theorem under_root (hσ : Standing grammar root σ ν ∅ U) (hclimbs : σ.Climbs h path) :
    σ.Under root h := by
  induction hclimbs with
  | root place => exact (hσ.root_iff _).mp place ▸ .refl
  | within place up ih => exact .within place ih

/-- Replaying the creation of the root tells of all states there are and of no others. -/
theorem covers_creationEvents (hσ : Standing grammar root σ ν ∅ U) :
    ∃ events, σ.creationEvents root = .ok events ∧
      (∀ g, lives g events = if (σ.get? g).isSome then [.created, .settled] else []) ∧
      ∀ branch, balance branch events = σ.blockCount branch := by
  have hclimbs : σ.Climbs root [] := .root ((hσ.root_iff root).mpr rfl)
  obtain ⟨events, hevents, hcovers⟩ := hσ.covers_creationWithin σ.generations hclimbs
    (σ.occupied_lt_generations.le.trans (Nat.le_add_right _ _))
  -- What is under the root is what is live.
  have hlive : ∀ g, σ.Live g → σ.Under root g := fun g hlive => by
    obtain ⟨path, hclimbs⟩ := hσ.rooted g hlive
    exact hσ.under_root hclimbs
  have hunder : ∀ g, σ.Under root g → σ.Live g := fun g hunder => by
    cases hunder with
    | refl => exact hclimbs.live
    | within place up => exact Store.live_of_place? place
  refine ⟨events, hevents, fun g => ?_, fun branch => ?_⟩
  · split
    · rename_i hsome
      exact hcovers.told root (List.mem_singleton.mpr rfl) g
        (hlive g (Option.isSome_iff_exists.mp hsome))
    · rename_i hnone
      refine hcovers.untold g fun d hd hbelow => hnone ?_
      obtain rfl := List.mem_singleton.mp hd
      exact Option.isSome_iff_exists.mpr (hunder g hbelow)
  · by_cases howner : σ.Live branch.owner
    · rw [hcovers.counted root (List.mem_singleton.mpr rfl) branch (hlive _ howner)]
      exact zero_add _
    · rw [hcovers.uncounted branch fun d hd hbelow => ?_, Store.blockCount, Store.branch?,
        Store.not_live.mp howner]
      · rfl
      · obtain rfl := List.mem_singleton.mp hd
        exact howner (hunder _ hbelow)

end Standing

end TreeEditor
