import TreeEditor.Proofs.JournalAccounts
import TreeEditor.Proofs.Removal

/-!
# Removing is told

A state is announced to be destroyed once everything under it is gone, and each of its blocks once
the members are. The state gives up its branches before that, so the blocks are first gone and then
told of: what is owed in between is the number of blocks of each branch, and a state has no two
branches of one name (`Store.Tidy`).

Removing only takes away (`Store.Shrinks`), so a state that has given up its branches has none when
its turn comes. The blocks of a branch are announced under the owner that the branch was made for,
which is the state that gives it up.
-/

namespace TreeEditor

open Event (lives balance creations)

namespace Store

variable {σ σ₁ σ' : Store} {g h : Handle} {owed owed' : BranchRef → Int}

/-- Every state that is left was there, with the branches that it has or with others that it gave
up. -/
def Shrinks (σ σ' : Store) : Prop :=
  ∀ g state', σ'.get? g = some state' → ∃ state, σ.get? g = some state ∧
    (state'.inners = [] ∨ state'.inners = state.inners)

/-- Nothing need go away. -/
theorem Shrinks.refl (σ : Store) : σ.Shrinks σ := fun _ state hstate => ⟨state, hstate, .inr rfl⟩

/-- What goes away in two steps goes away. -/
theorem Shrinks.trans (h : σ.Shrinks σ₁) (h' : σ₁.Shrinks σ') : σ.Shrinks σ' := by
  intro g state' hstate'
  obtain ⟨state₁, hstate₁, hinners'⟩ := h' g state' hstate'
  obtain ⟨state, hstate, hinners⟩ := h g state₁ hstate₁
  refine ⟨state, hstate, ?_⟩
  rcases hinners' with hnone | hsame
  · exact .inl hnone
  · rwa [hsame]

/-- Events tell of a step that only takes away. -/
def Loses (σ σ' : Store) (owed : BranchRef → Int) : Prop :=
  (∃ events, σ.Accounts σ' events owed) ∧ σ.Shrinks σ'

namespace Loses

/-- Nothing need go away. -/
theorem refl (σ : Store) : σ.Loses σ 0 := ⟨⟨[], .refl σ⟩, .refl σ⟩

/-- What goes away in two steps goes away. -/
theorem trans (h : σ.Loses σ₁ owed) (h' : σ₁.Loses σ' owed') : σ.Loses σ' (owed + owed') := by
  obtain ⟨⟨events, haccounts⟩, hshrinks⟩ := h
  obtain ⟨⟨events', haccounts'⟩, hshrinks'⟩ := h'
  exact ⟨⟨_, haccounts.trans haccounts'⟩, hshrinks.trans hshrinks'⟩

/-- What is left is tidy. -/
theorem tidy (h : σ.Loses σ' owed) (htidy : σ.Tidy) : σ'.Tidy := by
  obtain ⟨⟨events, haccounts⟩, -⟩ := h
  exact haccounts.tidy htidy

end Loses

/-- A state without branches is taken out of the arena and announced to be destroyed. -/
theorem accounts_take {state : State} {arena : Arena State}
    (hremove : σ.arena.remove h = some (state, arena)) (hbare : state.branches = []) :
    σ.Accounts (({ σ with arena } : Store).announce (.stateDestroyed state.place h))
      [.stateDestroyed state.place h] 0 := by
  obtain ⟨hstate, -⟩ := Arena.remove_eq_some.mp hremove
  have hget : ∀ g, ({ σ with arena } : Store).get? g = if g = h then none else σ.get? g :=
    Arena.get?_remove hremove
  have hgenerations : arena.generations = σ.arena.generations := Arena.generations_remove hremove
  -- Whatever is left was there.
  have hleft : ∀ g other, ({ σ with arena } : Store).get? g = some other →
      σ.get? g = some other := fun g other hother => by
    rw [hget] at hother
    split at hother
    · cases hother
    · exact hother
  refine ⟨fun htidy => ⟨htidy.arena.remove hremove, fun g other hother => ?_,
    fun g other hother => ?_⟩, ?_, fun _ cell => ?_, fun _ g => ?_, fun branch => ?_⟩
  · exact htidy.keys g other (hleft g other hother)
  · exact htidy.owned g other (hleft g other hother)
  · simp [announce]
  · change (arena.generations[cell]?).elim 0 _ = _
    rw [hgenerations]
    rfl
  · change ({ σ with arena } : Store).life g = _
    by_cases hg : g = h
    · -- The cell keeps its generation when it is emptied, so the handle is stale from now on.
      subst hg
      have hcell : σ.arena.generations[g.index]? = some g.generation := by
        unfold Arena.generations
        rw [List.getElem?_map, Arena.get?_eq_some.mp hstate]
        rfl
      have hstale : arena.isStale g = true := by
        rw [Arena.isStale_iff, hgenerations]
        exact ⟨_, hcell, .inr ⟨rfl, (hget g).trans (if_pos rfl)⟩⟩
      rw [life_of_live ⟨state, hstate⟩, life, hget, if_pos rfl, Option.isSome_none,
        if_neg Bool.false_ne_true, if_pos hstale]
      simp [Event.lives_cons, Event.life?]
    · have hlive : ({ σ with arena } : Store).Live g ↔ σ.Live g := by
        unfold Live
        rw [hget, if_neg hg]
      rw [life_congr hgenerations hlive]
      simp [Event.lives_cons, Event.life?, Ne.symm hg]
  · have hcount : ({ σ with arena } : Store).blockCount branch = σ.blockCount branch := by
      unfold blockCount branch?
      rw [hget]
      split
      · rename_i heq
        rw [heq, show σ.get? h = some state from hstate, Option.bind_some, hbare]
        rfl
      · rfl
    change ({ σ with arena } : Store).blockCount branch = _
    rw [hcount]
    simp [Event.balance_cons, Event.blockChange]

/-- A state without branches is taken out of the arena and off the register, and is announced to be
destroyed. -/
theorem loses_remove {state : State} {arena : Arena State}
    (hremove : σ.arena.remove h = some (state, arena)) (hbare : state.branches = []) :
    σ.Loses ((({ σ with arena } : Store).dismiss state.place h).announce
      (.stateDestroyed state.place h)) 0 := by
  obtain ⟨register, hregister⟩ := dismiss_eq ({ σ with arena } : Store) state.place h
  rw [hregister]
  have htaken := accounts_take hremove hbare
  refine ⟨⟨_, (htaken.trans (accounts_register register)).congr fun _ => by simp⟩, ?_⟩
  intro g state' hstate'
  have hstate' : (if g = h then none else σ.get? g) = some state' :=
    (Arena.get?_remove hremove g).symm.trans hstate'
  split at hstate'
  · cases hstate'
  · exact ⟨state', hstate', .inr rfl⟩

end Store

/-- Removing a state is told of. -/
def Told.Removal (remove : Handle → Store → Except Failure Store) : Prop :=
  ∀ σ h σ', σ.Tidy → remove h σ = .ok σ' → σ.Loses σ' 0

namespace Store

variable {σ σ₁ σ' : Store} {g h : Handle} {name : String}
  {remove : Handle → Store → Except Failure Store}

/-- States that are removed one after the other are told of. -/
theorem loses_foldlM (hremove : Told.Removal remove) {children : List Handle} (htidy : σ.Tidy)
    (hfold : children.foldlM (fun σ child => remove child σ) σ = .ok σ') : σ.Loses σ' 0 := by
  induction children generalizing σ with
  | nil =>
    cases hfold
    exact .refl _
  | cons child rest ih =>
    obtain ⟨σ₁, hfirst, hrest⟩ := bind_eq_ok.mp hfold
    have hloses := hremove σ child σ₁ htidy hfirst
    simpa using hloses.trans (ih (hloses.tidy htidy) hrest)

/-- The members of blocks are removed and told of, and so are the blocks. -/
theorem loses_releaseBlocks (hremove : Told.Removal remove) (site : BranchRef) {position : Nat}
    {blocks : List (Block Node Handle)} (htidy : σ.Tidy)
    (hrelease : releaseBlocks remove site position blocks σ = .ok σ') :
    σ.Loses σ' (Pi.single site (blocks.length : Int)) := by
  induction blocks generalizing σ position with
  | nil =>
    cases hrelease
    simpa using Loses.refl _
  | cons block rest ih =>
    obtain ⟨σ₁, hmembers, hrest⟩ := bind_eq_ok.mp hrelease
    have hblock := loses_foldlM hremove htidy hmembers
    have hannounced : σ₁.Loses (σ₁.announce (.blockDestroyed site position))
        (Pi.single site 1) := ⟨⟨_, accounts_blockDestroyed site position⟩, .refl σ₁⟩
    have hothers := ih (hannounced.tidy (hblock.tidy htidy)) hrest
    convert (hblock.trans hannounced).trans hothers using 1
    rw [zero_add, ← Pi.single_add, List.length_cons]
    congr 1
    push_cast
    ring

/-- The states of a branch are removed and told of. What is owed is the number of its blocks. -/
theorem loses_releaseWith (hremove : Told.Removal remove) {branch : Branch} (htidy : σ.Tidy)
    (hrelease : releaseWith remove h name branch σ = .ok σ') :
    σ.Loses σ' (Pi.single ⟨h, name⟩ branch.blockCount) := by
  cases branch with
  | blockList blocks => exact loses_releaseBlocks hremove _ htidy hrelease
  | placeholder child | optional child | list children =>
    simpa [Branch.blockCount] using loses_foldlM hremove htidy hrelease

/-- The number of blocks that a table of branches has under a name, for one owner. -/
def tableCount (h : Handle) (branches : List (String × Branch)) (site : BranchRef) : Int :=
  if site.owner = h then (Table.get? site.property branches).elim 0 Branch.blockCount else 0

/-- A further branch adds its blocks, if the table has none of its name. -/
theorem tableCount_cons {branches : List (String × Branch)} {entry : String × Branch}
    (hnew : entry.1 ∉ Table.keys branches) : tableCount h (entry :: branches) =
      Pi.single ⟨h, entry.1⟩ entry.2.blockCount + tableCount h branches := by
  funext ⟨owner, property⟩
  rw [Pi.add_apply, Pi.single_apply, tableCount, tableCount]
  by_cases howner : owner = h
  · subst howner
    by_cases hname : entry.1 = property
    · subst hname
      simp [Table.get?, Table.get?_eq_none_iff.mpr hnew]
    · simp [Table.get?, hname, Ne.symm hname]
  · simp [howner]

/-- The states of all branches are removed and told of. -/
theorem loses_release (hremove : Told.Removal remove) {branches : List (String × Branch)}
    (hkeys : (Table.keys branches).Nodup) (htidy : σ.Tidy)
    (hrelease : branches.foldlM (fun σ (property, branch) =>
      releaseWith remove h property branch σ) σ = .ok σ') : σ.Loses σ' (tableCount h branches) := by
  induction branches generalizing σ with
  | nil =>
    cases hrelease
    convert Loses.refl _
    funext site
    simp [tableCount, Table.get?]
  | cons entry rest ih =>
    obtain ⟨σ₁, hfirst, hrest⟩ := bind_eq_ok.mp hrelease
    obtain ⟨hnew, hkeys⟩ := List.nodup_cons.mp hkeys
    have hloses := loses_releaseWith hremove htidy hfirst
    rw [tableCount_cons hnew]
    exact hloses.trans (ih hkeys (hloses.tidy htidy) hrest)

/-- Everything under a state goes away and is told of, and the state is left without branches. -/
theorem loses_branches (hremove : Told.Removal remove) {state : State} (htidy : σ.Tidy)
    (hstate : σ.get? h = some state)
    (hrelease : state.inners.foldlM (fun σ (property, inner) =>
      releaseWith remove inner.owner property inner.branch σ)
      (σ.modify h fun state => { state with inners := [] }) = .ok σ') :
    σ.Loses σ' 0 ∧ ∀ state', σ'.get? h = some state' → state'.branches = [] := by
  rw [(htidy.owned h state hstate).foldlM_releaseWith] at hrelease
  have hget : ∀ g, (σ.modify h fun state => { state with inners := [] }).get? g =
      if g = h then some { state with inners := [] } else σ.get? g := by
    intro g
    rw [get?_modify, hstate]
    rfl
  -- The branches are given up first: their blocks are gone before they are told of.
  have hbared : σ.Loses (σ.modify h fun state => { state with inners := [] })
      (-tableCount h state.branches) := by
    refine ⟨⟨_, (accounts_modify h (fun state => { state with inners := [] })
        (fun _ _ => List.nodup_nil) fun _ _ => List.forall_mem_nil _).congr fun site => ?_⟩,
      fun g state' hstate' => ?_⟩
    · rw [Pi.neg_apply, tableCount, blockCount, blockCount, branch?, branch?, hget]
      split
      · rename_i heq
        rw [heq, hstate]
        simp [Table.get?]
      · simp
    · rw [hget] at hstate'
      split at hstate'
      · rename_i heq
        cases hstate'
        exact ⟨state, heq ▸ hstate, .inl rfl⟩
      · exact ⟨state', hstate', .inr rfl⟩
  have hreleased := loses_release hremove (htidy.keys h state hstate) (hbared.tidy htidy) hrelease
  refine ⟨by simpa using hbared.trans hreleased, fun state' hstate' => ?_⟩
  obtain ⟨before, hbefore, hinners⟩ := hreleased.2 h state' hstate'
  rw [hget, if_pos rfl] at hbefore
  cases hbefore
  rw [State.branches, hinners.elim id id]
  rfl

/-- Removing a state with everything under it is told of. -/
theorem told_destroyWithin (generations : Nat) : Told.Removal (destroyWithin generations) := by
  -- By induction on the bound: what is under the state goes with one generation less.
  induction generations with
  | zero => exact fun σ h σ' _ hdestroy => nomatch hdestroy
  | succ generations ih =>
    intro σ h σ' htidy hdestroy
    obtain ⟨state, σ₁, last, arena, hstate, hrelease, hremove, rfl⟩ :=
      destroyWithin_succ_eq_ok.mp hdestroy
    obtain ⟨hloses, hbare⟩ := loses_branches ih htidy hstate hrelease
    have hlast := hbare last (get?_of_remove hremove)
    simpa using hloses.trans (loses_remove hremove hlast)

/-- Removing a state is told of. -/
theorem loses_destroy (htidy : σ.Tidy) (hdestroy : σ.destroy h = .ok σ') : σ.Loses σ' 0 :=
  told_destroyWithin _ σ h σ' htidy hdestroy

/-- Removing everything under a state is told of. -/
theorem loses_clear (htidy : σ.Tidy) (hclear : σ.clear h = .ok σ') : σ.Loses σ' 0 := by
  obtain ⟨state, hstate, hrelease⟩ := clear_eq_ok.mp hclear
  exact (loses_branches (told_destroyWithin _) htidy hstate hrelease).1

/-- The members of a removed block are removed and told of. -/
theorem loses_destroyMembers {block : Nat} {members : List (Handle × Nat)} (htidy : σ.Tidy)
    (hdestroy : Editor.destroyMembers h name block members σ = .ok σ') : σ.Loses σ' 0 := by
  induction members generalizing σ with
  | nil =>
    cases hdestroy
    exact .refl _
  | cons member rest ih =>
    obtain ⟨σ₁, hfirst, hrest⟩ := bind_eq_ok.mp hdestroy
    have hloses := loses_destroy htidy hfirst
    have hannounced : σ₁.Loses (σ₁.announce
        (.removed (.within h name (.member block member.2)) member.1)) 0 :=
      ⟨⟨_, accounts_announce_of_eq ⟨fun _ => rfl, fun _ => rfl⟩ fun _ => rfl⟩, .refl σ₁⟩
    simpa using (hloses.trans hannounced).trans
      (ih (hannounced.tidy (hloses.tidy htidy)) hrest)

end Store

end TreeEditor
