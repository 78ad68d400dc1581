import TreeEditor.Proofs.Reversal
import TreeEditor.Proofs.SurvivingHandles

/-!
# Handles after a refused group

The edits of a refused group that had been made are taken back. The handles that were live all along
are then those of the states that they were, each registered where it was. When none of the edits
that were made removes a state that was there, all states are as they were and there are no others
(`Editor.handles_of_refused`); insertions, new blocks and assignments may be among those edits,
since taking them back removes just the states that they made. What the group does from the refused
edit on is of no account.

Taking back a removal makes new states for the nodes that come back, and the handles that they had
before are dead (`Editor.handle_lost_by_refused`). Nothing of that is announced.
-/

namespace TreeEditor

namespace Grammar

variable {grammar : Grammar} {document other : Node} {path : Path}

/-- A seat of a document is one of every document that is the same. -/
theorem Seat.same (hdocument : document.WellFormed) (hother : other.WellFormed)
    (hsame : document.Same other) (h : grammar.Seat other path) : grammar.Seat document path := by
  rcases h with ⟨node, hreach⟩ | ⟨owner, name, assigned, item, up, rfl, hreach, hslot, hvacant⟩
  · obtain ⟨found, hfound, -⟩ := reach_same hdocument hother hsame hreach
    exact .inl ⟨found, hfound⟩
  · obtain ⟨found, hfound, hfoundSame⟩ := reach_same hdocument hother hsame hreach
    obtain ⟨P, hP, hcorresponds⟩ := branch?_same (wellFormed_reach hdocument hfound)
      (wellFormed_reach hother hreach) hfoundSame hslot
    cases hcorresponds with
    | @optional _ a _ hrel =>
      refine .inr ⟨found, name, assigned, a, up, rfl, hfound, hP, ?_⟩
      cases hrel with
      | none => exact ite_self _
      | some => cases assigned <;> simp_all

/-- Documents that are the same have the same seats. -/
theorem seat_same (hdocument : document.WellFormed) (hother : other.WellFormed)
    (hsame : document.Same other) : grammar.Seat document path ↔ grammar.Seat other path :=
  ⟨.same hother hdocument (Node.same_symm hdocument hother hsame), .same hdocument hother hsame⟩

end Grammar

namespace Store

variable {σ : Store} {h : Handle}

/-- What is not live has no place, no stage and no branches. -/
theorem bare_of_not_live (hdead : ¬ σ.Live h) :
    σ.place? h = none ∧ σ.stage? h = none ∧ ∀ name, σ.branch? h name = none := by
  rw [not_live] at hdead
  simp [place?, stage?, branch?, hdead]

end Store

namespace Editor

variable {editor after : Editor} {ν ν' : Handle → Option Node} {h : Handle} {group : Group}
  {reason : Refusal}

/-- Nothing has become of the states: the same handles are live, in the same places and stages and
with the same children in the same slots. The headers of blocks, which name no states, are left out:
a header that is put back is the recorded one, whose nodes may have their properties in another
order. -/
structure Undisturbed (editor after : Editor) : Prop where
  live : ∀ h, after.store.Live h ↔ editor.store.Live h
  places : ∀ h, after.store.place? h = editor.store.place? h
  registered : ∀ place, after.stateAt? place = editor.stateAt? place
  stages : ∀ h, after.store.stage? h = editor.store.stage? h
  branches : ∀ h name, Option.Rel (Branch.Corresponds Eq) (editor.store.branch? h name)
    (after.store.branch? h name)

/-- An editor that shares all its states with another one, which has no more, is left undisturbed.
-/
theorem Shares.undisturbed (hshares : editor.Shares {h | editor.store.Live h} after)
    (hmirrors : editor.Mirrors ν) (hafter : after.Mirrors ν')
    (hlive : ∀ h, after.store.Live h → editor.store.Live h) : editor.Undisturbed after := by
  have hplaces : ∀ h, after.store.place? h = editor.store.place? h := fun h => by
    by_cases hh : editor.store.Live h
    · exact hshares.place? hmirrors hafter (lineage_live hmirrors) hh
    · rw [(Store.bare_of_not_live hh).1, (Store.bare_of_not_live (mt (hlive h) hh)).1]
  refine ⟨fun h => ⟨hlive h, hshares.live h⟩, hplaces, fun place => Option.ext fun h => ?_,
    fun h => ?_, fun h name => ?_⟩
  · rw [Editor.stateAt?_iff hmirrors, Editor.stateAt?_iff hafter, hplaces]
  · by_cases hh : editor.store.Live h
    · exact hshares.stages h hh
    · rw [(Store.bare_of_not_live hh).2.1, (Store.bare_of_not_live (mt (hlive h) hh)).2.1]
  · by_cases hh : editor.store.Live h
    · have hrel := hshares.branches h hh name
      cases hbranch : editor.store.branch? h name with
      | none => rwa [hbranch, rel_none_left, ← rel_none_left] at hrel
      | some branch =>
        rw [hbranch, rel_some_left] at hrel
        obtain ⟨branch', hbranch', hcorresponds⟩ := hrel
        rw [hbranch']
        refine .some (hcorresponds.imp fun c hc d hsame => hsame.eq ?_)
        obtain ⟨slot, hslot⟩ := Branch.mem_children.mp hc
        exact Store.live_of_place? ((hmirrors.standing.linked h hh (Set.notMem_empty h) name slot
          c).mpr ⟨branch, hbranch, hslot⟩)
    · rw [(Store.bare_of_not_live hh).2.2, (Store.bare_of_not_live (mt (hlive h) hh)).2.2]
      exact .none

/-- Documents that are the same give states to the same paths. -/
theorem seats_of_same (hmirrors : editor.Mirrors ν) (hafter : after.Mirrors ν')
    (hgrammar : after.grammar = editor.grammar) (hsame : after.document.Same editor.document)
    (path : Path) :
    (∃ h, after.store.Climbs h path) ↔ ∃ h, editor.store.Climbs h path := by
  rw [hafter.climbs_iff, hmirrors.climbs_iff, hgrammar]
  exact Grammar.seat_same hafter.wellFormed hmirrors.wellFormed hsame

/-- An editor has no more states than one with which it shares all of that one's, if no other paths
have states. -/
theorem Shares.live_of_seats (hshares : editor.Shares {h | editor.store.Live h} after)
    (hmirrors : editor.Mirrors ν) (hafter : after.Mirrors ν')
    (hseats : ∀ path, (∃ h, after.store.Climbs h path) ↔ ∃ h, editor.store.Climbs h path)
    (hlive : after.store.Live h) : editor.store.Live h := by
  obtain ⟨path, hclimbs⟩ := hafter.standing.rooted h hlive
  obtain ⟨g, hg⟩ := (hseats path).mp ⟨h, hclimbs⟩
  have hg' := (hshares.climbs_iff hmirrors hafter (lineage_live hmirrors) hg.live).mpr hg
  rw [hafter.standing.climbs_inj hclimbs hg']
  exact hg.live

/-- The edits before the one for which a group is refused were made and taken back. -/
theorem exists_back_of_refused (hsteady : editor.Steady) (hclosed : editor.history.batch = none)
    (hgroup : ∀ edit ∈ group.edits, edit.WellFormed)
    (hrefused : editor.execute group = (.error (.refused reason), after)) :
    ∃ made edit rest between last, group.edits = made ++ edit :: rest ∧
      made.foldlM apply editor = .ok between ∧ between.apply edit = .error (.refused reason) ∧
        (made.reverse.map Edit.invert).foldlM apply between = .ok last ∧
          after = { last with store := { last.store with journal := editor.store.journal } } := by
  have turn := execute_turn hsteady hgroup
  rw [run, hrefused] at turn
  cases turn with
  | batchOpen hopened => rw [hclosed] at hopened; cases hopened
  | noBatch _ hrequest => rcases hrequest with h | h | ⟨_, h⟩ <;> cases h
  | failed hasks hattempt =>
    cases hasks
    cases hattempt with
    | refused hparts hmade hfirst hback => exact ⟨_, _, _, _, _, hparts, hmade, hfirst, hback, rfl⟩

/-- A group is refused for one of its edits. The handles that are live before the edits that come
before it and after each of them are live afterwards, registered where they were, and their states
are in the same stages and hold each other in the same slots. When none of those edits removes
states, the states are undisturbed. So they are in a filled document when the edits remove no state
that was there, and in any case the same paths have states there. -/
theorem handles_of_refused (hreachable : editor.Reachable) (hclosed : editor.history.batch = none)
    (hgroup : (Request.execute group).WellFormed)
    (hrefused : editor.execute group = (.error (.refused reason), after)) :
    ∃ made edit rest between, group.edits = made ++ edit :: rest ∧
      made.foldlM apply editor = .ok between ∧ between.apply edit = .error (.refused reason) ∧
      editor.Shares {h | editor.Outlives made h} after ∧
      (∀ h, editor.Outlives made h →
        ∀ place, after.stateAt? place = some h ↔ editor.stateAt? place = some h) ∧
      ((∀ edit ∈ made, ∀ path, ¬ edit.Discards path) → editor.Undisturbed after) ∧
      (editor.document.Filled → (Request.execute group).Filled →
        (∀ path, (∃ h, after.pathOf h = .ok path) ↔ ∃ h, editor.pathOf h = .ok path) ∧
          ((∀ h, editor.store.Live h → editor.Outlives made h) → editor.Undisturbed after)) := by
  have hsound := hreachable.steady.sound
  have hedits : ∀ edit ∈ group.edits, edit.WellFormed := fun edit hedit node hnode =>
    hgroup node (List.mem_flatMap_of_mem hedit hnode)
  obtain ⟨made, edit, rest, between, last, hparts, hmade, hfirst, hback, rfl⟩ :=
    exists_back_of_refused hreachable.steady hclosed hedits hrefused
  have hmem : ∀ edit ∈ made, edit ∈ group.edits := fun e he => hparts ▸ List.mem_append_left _ he
  have hwell : ∀ edit ∈ made, edit.WellFormed := fun e he => hedits e (hmem e he)
  have hbetween := (foldlM_apply_eq_ok hsound hwell hmade).2.1
  have hlast := (foldlM_apply_eq_ok hbetween (Edit.wellFormed_inverses hwell) hback).2.1
  obtain ⟨ν', hafter⟩ := hlast.journal editor.store.journal
  have hshares : ∀ {S}, editor.store.Lineage S → (∀ h ∈ S, editor.Outlives made h) →
      editor.Shares S { last with store := { last.store with journal := editor.store.journal } } :=
    fun hS houtlives => (shares_of_back hsound hwell hmade hback hS houtlives).journal _
  have hlineage := lineage_outlives hsound hwell
  obtain ⟨ν, hmirrors⟩ := id hsound
  have hall : editor.store.Lineage {h | editor.store.Live h} := lineage_live hmirrors
  refine ⟨made, edit, rest, between, hparts, hmade, hfirst, hshares hlineage fun _ => id,
    fun h hh place => (hshares hlineage fun _ => id).stateAt?_iff hmirrors hafter hlineage hh,
    fun hkeeps => ?_, fun hdocument hfilled => ?_⟩
  · exact (hshares hall fun h => outlives_of_live hsound hwell hkeeps).undisturbed hmirrors hafter
      fun h (hlive : last.store.Live h) => live_of_back hsound hwell hkeeps hmade hback hlive
  · have hmadeFilled : ∀ edit ∈ made, edit.WellFormed ∧ edit.Filled := fun e he =>
      ⟨hwell e he, fun node hnode => hfilled node (List.mem_flatMap_of_mem (hmem e he) hnode)⟩
    obtain ⟨_, hlast', -, hsame, halike⟩ := exists_back hsound hdocument hmadeFilled hmade
    cases hlast'.symm.trans hback
    have hseats := seats_of_same hmirrors hafter halike.grammar hsame
    refine ⟨fun path => ?_, fun hkeeps => ?_⟩
    · simp only [pathOf_eq_ok]
      exact hseats path
    · exact (hshares hall hkeeps).undisturbed hmirrors hafter
        fun h => (hshares hall hkeeps).live_of_seats hmirrors hafter hseats

/-- A group that puts in an item, assigns a child, puts in a block, splits another one and moves an
item, and then names a position out of range. -/
def unsettling : Group :=
  .plain (.insert ⟨[], "items"⟩ (.list 0) (.mk "New" [("l", .list [.bare "L"])]))
    [.assign ⟨[], "extra"⟩ (some (.bare "C")) (.mk "E" [("l", .list [.bare "L"])]),
      .insertBlock ⟨[], "groups"⟩ 1 ⟨.blank, [.bare "M"]⟩, .splitBlock ⟨[], "groups"⟩ 0 1 .blank,
      .move ⟨[], "items"⟩ (.list 0) 2, .remove ⟨[], "items"⟩ (.list 7) (.bare "A")]

/-- All edits of the group but the last one are made, and the states of the sample document are
undisturbed once they are taken back. -/
theorem handles_of_unsettling :
    ∃ (editor after between : Editor) (reason : Refusal), editor.Reachable ∧
      editor.history.batch = none ∧ (Request.execute unsettling).WellFormed ∧
      editor.execute unsettling = (.error (.refused reason), after) ∧
      unsettling.edits.dropLast.foldlM apply editor = .ok between ∧ editor.Undisturbed after := by
  have hwell : (Request.execute unsettling).WellFormed := by decide
  obtain ⟨start, hstart, htest⟩ := exists_start (d := .sample) (g := .free) (s := .standard)
    (p := fun start => (unsettling.edits.dropLast.foldlM apply start).toOption.isSome &&
      match start.execute unsettling with
      | (.error (.refused _), _) => true
      | _ => false) (by cbv)
  obtain ⟨hmade, hfails⟩ := Bool.and_eq_true_iff.mp htest
  obtain ⟨between, hbetween⟩ := Option.isSome_iff_exists.mp hmade
  obtain ⟨-, -, hdocument, -, hhistory⟩ :=
    mirrors_ofDocument Node.wellFormed_sample Grammar.distinct_free hstart
  have hreachable := reachable_ofDocument Node.wellFormed_sample Grammar.distinct_free hstart
  have hclosed : start.history.batch = none := by rw [hhistory]; rfl
  split at hfails
  · rename_i reason after hexecute
    obtain ⟨made, edit, rest, -, hparts, -, -, -, -, hundisturbed, -⟩ :=
      handles_of_refused hreachable hclosed hwell hexecute
    refine ⟨start, after, between, reason, hreachable, hclosed, hwell, hexecute,
      toOption_eq_some.mp hbetween, hundisturbed fun e he path => ?_⟩
    -- Whichever edit is refused, those before it are among all but the last one.
    have hmem : e ∈ unsettling.edits.dropLast := by
      rw [hparts, List.dropLast_append_of_ne_nil (List.cons_ne_nil edit rest)]
      exact List.mem_append_left _ he
    simp only [unsettling, Group.plain, List.dropLast, List.mem_cons, List.not_mem_nil, or_false]
      at hmem
    rcases hmem with rfl | rfl | rfl | rfl | rfl <;> exact id
  · cases hfails

/-- A document with a single item. -/
def single : Node := .mk "Root" [("items", .list [.bare "A"])]

/-- A group that removes the item and then names one that is not there. -/
def removal : Group :=
  .plain (.remove ⟨[], "items"⟩ (.list 0) (.bare "A"))
    [.remove ⟨[], "items"⟩ (.list 7) (.bare "A")]

/-- The item comes back with another state, and the handle that it had is dead. -/
theorem handle_lost_by_refused :
    ∃ start after reason, ofDocument single .free .standard = .ok start ∧
      start.execute removal = (.error (.refused reason), after) ∧
        start.store.Live ⟨1, 0⟩ ∧ ¬ after.store.Live ⟨1, 0⟩ := by
  obtain ⟨start, hstart, hlost⟩ := exists_start (d := single) (g := .free) (s := .standard)
    (p := fun start => (start.store.get? ⟨1, 0⟩).isSome && match start.execute removal with
      | (.error (.refused _), after) => (after.store.get? ⟨1, 0⟩).isNone
      | _ => false) (by cbv)
  obtain ⟨hlive, hdead⟩ := Bool.and_eq_true_iff.mp hlost
  split at hdead
  · rename_i reason after hexecute
    refine ⟨start, after, reason, hstart, hexecute, Option.isSome_iff_exists.mp hlive, ?_⟩
    rintro ⟨state, hstate⟩
    rw [hstate] at hdead
    cases hdead
  · cases hdead

end Editor

end TreeEditor
