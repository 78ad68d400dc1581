import TreeEditor.Proofs.Addresses
import TreeEditor.Proofs.BranchReversal
import TreeEditor.Proofs.Handles

/-!
# Handles that outlive edits

When edits that were made are taken back, the last one first, the states that some of them removed
do not come back: their nodes get other ones. The handles that were live all along, after every one
of the edits (`Editor.Outlives`), are those of the states that are as they were: in their places, in
their stages, and with the same children in the same slots, apart from children that were lost
(`Editor.shares_of_back`).

The proof carries a relation between the editor before an edit and the one that is left when the
edit has been taken back, `Editor.Shares`, over any set of handles that outlive the edits and holds
with each handle those above it (`Store.Lineage`). Taking back one edit preserves it
(`Editor.Shares.back`). At the property of the edit this is `Edit.Rewrites.back`, and elsewhere
nothing changes, with one exception: the state in the slot of an optional child loses its children
when the child is unassigned and gets others when it is assigned again.

Edits that remove nothing are outlived by all handles (`Editor.outlives_of_live`), and when they are
taken back no other handles are left (`Editor.live_of_back`).
-/

namespace TreeEditor

namespace Edit

variable {edit : Edit} {path : Path}

/-- Taking an edit back removes the states at the paths where the edit made some. -/
theorem discards_invert (edit : Edit) (path : Path) :
    edit.invert.Discards path ↔ edit.Installs path := by
  cases edit <;> rfl

/-- Taking an edit back makes states at the paths where the edit removed some. -/
theorem installs_invert (edit : Edit) (path : Path) :
    edit.invert.Installs path ↔ edit.Discards path := by
  cases edit <;> rfl

/-- Taking an edit back concerns the same slot of an optional child. -/
theorem toggles_invert (edit : Edit) (path : Path) :
    edit.invert.Toggles path ↔ edit.Toggles path := by
  cases edit <;> rfl

/-- An edit does not remove the owner of its property. -/
theorem not_discards_owner (edit : Edit) : ¬ edit.Discards edit.site.owner := by
  have hbelow : ∀ (branch : BranchPath) slot, ¬ branch.child slot <+: branch.owner := by
    intro branch slot hprefix
    simpa [BranchPath.child, Path.child] using hprefix.length_le
  cases edit with
  | remove | replace => exact hbelow _ _
  | removeBlock =>
    rintro ⟨position, hat⟩
    exact hbelow _ _ hat
  | unassign =>
    rintro ⟨hat, -⟩
    exact hbelow _ _ hat
  | _ => exact id

/-- The slot of an optional child that an edit assigns or unassigns. -/
theorem Toggles.eq (h : edit.Toggles path) :
    path = edit.site.owner ++ [⟨edit.site.property, .optional⟩] := by
  cases edit with
  | assign | unassign => exact h
  | _ => exact h.elim

/-- Assigning and unassigning leave the branch of the child as it is. -/
theorem Rewrites.eq_of_toggles {gone came : Handle → Prop} {old new : Branch}
    (h : edit.Rewrites gone came old new) (htoggles : edit.Toggles path) : new = old := by
  cases h with
  | assign | unassign => rfl
  | _ => exact htoggles.elim

end Edit

namespace Store

variable {σ σ' : Store} {S : Set Handle}

/-- Some live states with all those above them. -/
structure Lineage (σ : Store) (S : Set Handle) : Prop where
  live : ∀ h ∈ S, σ.Live h
  parent : ∀ h ∈ S, ∀ parent name slot, σ.place? h = some (.within parent name slot) → parent ∈ S

namespace Turns

variable {grammar grammar' : Grammar} {root root' h : Handle} {edit : Edit} {path : Path}
  {ν ν' : Handle → Option Node}

/-- A state that stays in the store stays under its parent. -/
theorem within_iff (hturns : σ.Turns edit ν σ' ν') (hlive : σ.Live h) (hlive' : σ'.Live h)
    {parent : Handle} {name : String} :
    (∃ slot, σ'.place? h = some (.within parent name slot)) ↔
      ∃ slot, σ.place? h = some (.within parent name slot) := by
  rcases hturns.places h hlive hlive' with hsame | ⟨owner, slot, slot', -, hbefore, hafter⟩
  · rw [hsame]
  · rw [hbefore, hafter]
    constructor
    · rintro ⟨_, heq⟩
      cases heq
      exact ⟨slot, rfl⟩
    · rintro ⟨_, heq⟩
      cases heq
      exact ⟨slot', rfl⟩

/-- States that stay in the store go on to have those above them. -/
theorem lineage (hturns : σ.Turns edit ν σ' ν') (hS : σ.Lineage S)
    (hlive : ∀ h ∈ S, σ'.Live h) : σ'.Lineage S where
  live := hlive
  parent h hh parent name slot hplace := by
    obtain ⟨slot', hplace'⟩ := (hturns.within_iff (hS.live h hh) (hlive h hh)).mp ⟨slot, hplace⟩
    exact hS.parent h hh parent name slot' hplace'

/-- The owner of the property of an edit keeps its path. -/
theorem climbs_owner (hturns : σ.Turns edit ν σ' ν') (hσ' : Standing grammar root σ' ν' ∅ ∅)
    (hclimbs : σ.Climbs h edit.site.owner) : σ'.Climbs h edit.site.owner := by
  refine hturns.climbs_above hσ' hclimbs List.prefix_rfl
    ((hturns.gone h hclimbs.live).mpr ?_)
  rintro ⟨path, hclimbs', hdiscards⟩
  rw [← hclimbs.unique hclimbs'] at hdiscards
  exact edit.not_discards_owner hdiscards

/-- The state in the slot of an optional child stays when the child is assigned or unassigned. -/
theorem climbs_toggled (hturns : σ.Turns edit ν σ' ν') (hσ : Standing grammar root σ ν ∅ ∅)
    (hσ' : Standing grammar' root' σ' ν' ∅ ∅) (htoggles : edit.Toggles path) :
    σ'.Climbs h path ↔ σ.Climbs h path := by
  obtain ⟨owner, howner, hsite, -⟩ := hturns.revises
  have hbranch : σ'.branch? owner edit.site.property = σ.branch? owner edit.site.property := by
    generalize σ.branch? owner edit.site.property = old at hsite
    generalize σ'.branch? owner edit.site.property = new at hsite
    cases hsite with
    | none => rfl
    | some hrewrites => rw [hrewrites.eq_of_toggles htoggles]
  rw [htoggles.eq, hσ.climbs_child_iff howner,
    hσ'.climbs_child_iff (hturns.climbs_owner hσ' howner), hbranch]

end Turns

end Store

/-- Branches that reflect corresponding properties correspond if all their states do. -/
theorem Reflects.corresponds {ν ν' : Handle → Option Node} {P Q : Property Node} {a b : Branch}
    {T : Node → Node → Prop} {R : Handle → Handle → Prop} (h : Reflects ν P a)
    (h' : Reflects ν' Q b) (hPQ : P.Corresponds T Q)
    (hR : ∀ c ∈ a.children, ∀ d ∈ b.children, R c d) : a.Corresponds R b := by
  cases hPQ with
  | value => cases h
  | child =>
    cases h
    cases h'
    exact .placeholder (hR _ (List.mem_singleton_self _) _ (List.mem_singleton_self _))
  | optional =>
    cases h
    cases h'
    exact .optional (hR _ (List.mem_singleton_self _) _ (List.mem_singleton_self _))
  | list nodes =>
    cases h with
    | list labels => cases h' with
      | list labels' =>
        rw [Branch.children_list, Branch.children_list] at hR
        exact .list (forall₂_of_forall (labels.length_eq.symm.trans (nodes.length_eq.trans
          labels'.length_eq)) hR)
  | blockList blocks =>
    cases h with
    | blockList labels => cases h' with
      | blockList labels' =>
        rw [Branch.children_blockList, Branch.children_blockList] at hR
        refine .blockList ((forall₂_attach (forall₂_comp (forall₂_comp labels.flip blocks)
          labels')).imp ?_)
        rintro held held' ⟨hheld, hheld', _, ⟨_, hlabels, hmembers⟩, hlabels'⟩
        exact ⟨trivial, forall₂_of_forall (hlabels.members.length_eq.symm.trans
          (hmembers.members.length_eq.trans hlabels'.members.length_eq)) fun c hc d hd =>
            hR c (List.mem_flatMap_of_mem hheld hc) d (List.mem_flatMap_of_mem hheld' hd)⟩

/-- Nodes that are the same have corresponding properties under every name. -/
theorem rel_branch?_same (grammar : Grammar) {node other : Node} (hnode : node.WellFormed)
    (hother : other.WellFormed) (h : node.Same other) (name : String) :
    Option.Rel (Property.Corresponds Node.Same) (grammar.branch? node name)
      (grammar.branch? other name) := by
  cases hQ : grammar.branch? other name with
  | some Q => exact rel_some_right.mpr (Grammar.branch?_same hnode hother h hQ)
  | none =>
    cases hP : grammar.branch? node name with
    | none => exact .none
    | some P =>
      obtain ⟨Q, hQ', -⟩ :=
        Grammar.branch?_same hother hnode (Node.same_symm hnode hother h) hP
      cases hQ.symm.trans hQ'

/-- A state that stands for nodes that are the same in two stores has corresponding branches there
if the children are related. -/
theorem rel_branch?_of_same {grammar : Grammar} {root root' h : Handle} {σ σ' : Store}
    {ν ν' : Handle → Option Node} {U U' : Set Handle} (hσ : Standing grammar root σ ν ∅ U)
    (hσ' : Standing grammar root' σ' ν' ∅ U') (hlive : σ.Live h) (hlive' : σ'.Live h)
    {node node' : Node} (hlabel : ν h = some node) (hlabel' : ν' h = some node')
    (hnode : node.WellFormed) (hnode' : node'.WellFormed) (hsame : node.Same node') {name : String}
    {R : Handle → Handle → Prop}
    (hR : ∀ a b, σ.branch? h name = some a → σ'.branch? h name = some b →
      ∀ c ∈ a.children, ∀ d ∈ b.children, R c d) :
    Option.Rel (Branch.Corresponds R) (σ.branch? h name) (σ'.branch? h name) := by
  have hrel := hσ.rel_branch? hlive hlabel name
  have hrel' := hσ'.rel_branch? hlive' hlabel' name
  have hbranch := rel_branch?_same grammar hnode hnode' hsame name
  generalize grammar.branch? node name = P at hrel hbranch
  generalize grammar.branch? node' name = Q at hrel' hbranch
  cases hbranch with
  | none =>
    rw [rel_none_left.mp hrel, rel_none_left.mp hrel']
    exact .none
  | some hcorresponds =>
    obtain ⟨a, ha, hreflects⟩ := rel_some_left.mp hrel
    obtain ⟨b, hb, hreflects'⟩ := rel_some_left.mp hrel'
    rw [ha, hb]
    exact .some (hreflects.corresponds hreflects' hcorresponds (hR a b ha hb))

namespace Editor

variable {editor next other last : Editor} {ν ν' : Handle → Option Node} {edit : Edit}
  {made : List Edit} {S : Set Handle} {h : Handle} {path : Path}

/-- Two editors share some states: these are live and in the same stage in both, and with the same
children in the same slots, as far as the children are shared. -/
structure Shares (editor : Editor) (S : Set Handle) (other : Editor) : Prop where
  grammar : other.grammar = editor.grammar
  root : other.root = editor.root
  live : ∀ h ∈ S, other.store.Live h
  stages : ∀ h ∈ S, other.store.stage? h = editor.store.stage? h
  branches : ∀ h ∈ S, ∀ name, Option.Rel (Branch.Corresponds (SameAmong S))
    (editor.store.branch? h name) (other.store.branch? h name)

/-- With each live state those above it are live. -/
theorem lineage_live (hmirrors : editor.Mirrors ν) :
    editor.store.Lineage {h | editor.store.Live h} :=
  ⟨fun _ hh => hh, fun _ _ _ _ _ hplace => hmirrors.standing.parent_live hplace⟩

namespace Shares

/-- An editor shares its states with itself. -/
theorem refl (hS : editor.store.Lineage S) : editor.Shares S editor where
  grammar := rfl
  root := rfl
  live := hS.live
  stages _ _ := rfl
  branches h _ name := by
    cases editor.store.branch? h name with
    | none => exact .none
    | some branch => exact .some (.refl (.refl S) branch)

/-- What was announced is no matter of the states. -/
theorem journal (hshares : editor.Shares S other) (journal : Array Event) :
    editor.Shares S { other with store := { other.store with journal } } :=
  ⟨hshares.grammar, hshares.root, hshares.live, hshares.stages, hshares.branches⟩

section Places

variable (hshares : editor.Shares S other) (hmirrors : editor.Mirrors ν) (hother : other.Mirrors ν')
  (hS : editor.store.Lineage S) (hh : h ∈ S)

include hshares hmirrors hother hS hh

/-- A shared state stands at the same place in both editors. -/
theorem place? : other.store.place? h = editor.store.place? h := by
  obtain ⟨place, hplace⟩ := (hS.live h hh).place?
  rw [hplace]
  cases place with
  | root =>
    rw [hother.standing.root_iff, hshares.root]
    exact (hmirrors.standing.root_iff h).mp hplace
  | within parent name slot =>
    -- The parent is shared too, and has the state in the same slot.
    have hparent := hS.parent h hh parent name slot hplace
    obtain ⟨branch, hbranch, hchild⟩ := (hmirrors.standing.linked parent (hS.live parent hparent)
      (Set.notMem_empty parent) name slot h).mp hplace
    have hrel := hshares.branches parent hparent name
    rw [hbranch, rel_some_left] at hrel
    obtain ⟨branch', hbranch', hcorresponds⟩ := hrel
    have hchild' := hcorresponds.childAt?_rel slot
    rw [hchild, rel_some_left] at hchild'
    obtain ⟨held, hheld, hsame⟩ := hchild'
    rw [← hsame.eq hh] at hheld
    exact (hother.standing.linked parent (hshares.live parent hparent) (Set.notMem_empty parent)
      name slot h).mpr ⟨branch', hbranch', hheld⟩

/-- A shared state is registered at the same place in both editors. -/
theorem stateAt?_iff {place : Place} :
    other.stateAt? place = some h ↔ editor.stateAt? place = some h := by
  rw [Editor.stateAt?_iff hmirrors, Editor.stateAt?_iff hother,
    hshares.place? hmirrors hother hS hh]

/-- A shared state has the same path in both editors. -/
theorem climbs_iff : other.store.Climbs h path ↔ editor.store.Climbs h path := by
  have hclimbs : ∀ {g path}, g ∈ S → editor.store.Climbs g path → other.store.Climbs g path := by
    intro g path hg hclimbs
    induction hclimbs with
    | root hat => exact .root ((hshares.place? hmirrors hother hS hg).trans hat)
    | within hat _ ih =>
      exact .within ((hshares.place? hmirrors hother hS hg).trans hat)
        (ih (hS.parent _ hg _ _ _ hat))
  refine ⟨fun hother' => ?_, hclimbs hh⟩
  obtain ⟨path', hpath'⟩ := hmirrors.standing.rooted h (hS.live h hh)
  rwa [hother'.unique (hclimbs hh hpath')]

end Places

end Shares

/-- The state in the slot of an optional child is in the same stage when the child has been assigned
or unassigned and that has been taken back, and it has as many children. -/
theorem toggled_back (hmirrors : editor.Mirrors ν) (hlast : last.Mirrors ν')
    (hgrammar : last.grammar = editor.grammar) (htoggles : edit.Toggles path)
    (hclimbs : editor.store.Climbs h path) (hclimbs' : last.store.Climbs h path)
    {document other : Node}
    (heffect : edit.effect editor.grammar editor.document = some document)
    (hother : other.WellFormed)
    (hinverse : edit.invert.effect editor.grammar other = some last.document)
    (hgone : ∀ g below, editor.store.Climbs g below → edit.Discards below → g ∉ S)
    (hcame : ∀ g below, last.store.Climbs g below → edit.invert.Installs below → g ∉ S) :
    last.store.stage? h = editor.store.stage? h ∧
      ∀ name, Option.Rel (Branch.Corresponds (SameAmong S)) (editor.store.branch? h name)
        (last.store.branch? h name) := by
  have hσ := hmirrors.standing
  have hσ' := hlast.standing
  rw [hgrammar] at hσ'
  have hlabel := hσ.label_of_climbs hmirrors.document hclimbs
  have hlabel' := hσ'.label_of_climbs hlast.document hclimbs'
  cases edit with
  | assign branch before after =>
    -- The state had no node, and has none again.
    cases htoggles
    rw [Edit.reach_eq_none_of_assign hmirrors.wellFormed heffect] at hlabel
    rw [(Edit.reach_child_of_unassign hother hinverse).2] at hlabel'
    obtain ⟨hstage, hbranches⟩ := hσ.vacant_of_label hclimbs.live hlabel
    obtain ⟨hstage', hbranches'⟩ := hσ'.vacant_of_label hclimbs'.live hlabel'
    refine ⟨hstage'.trans hstage.symm, fun name => ?_⟩
    rw [hbranches, hbranches']
    exact .none
  | unassign branch item restore =>
    -- The state had a node, and has the recorded one, which is the same. All children are new.
    cases htoggles
    obtain ⟨⟨held, hheld, hsame⟩, -⟩ := Edit.reach_child_of_unassign hmirrors.wellFormed heffect
    have hitem := Edit.reach_contents hother hinverse (List.mem_singleton_self _)
    change editor.grammar.reach last.document (branch.child .optional) = some item at hitem
    have hheldWell := Grammar.wellFormed_reach hmirrors.wellFormed hheld
    have hitemWell := Grammar.wellFormed_reach hlast.wellFormed hitem
    rw [hheld] at hlabel
    rw [hitem] at hlabel'
    refine ⟨(hσ'.ready_of_label hclimbs'.live hlabel').trans
      (hσ.ready_of_label hclimbs.live hlabel).symm, fun name => ?_⟩
    refine rel_branch?_of_same hσ hσ' hclimbs.live hclimbs'.live hlabel hlabel' hheldWell hitemWell
      hsame fun a b ha hb c hc d hd => ?_
    obtain ⟨slot, hslot⟩ := Branch.mem_children.mp hc
    obtain ⟨slot', hslot'⟩ := Branch.mem_children.mp hd
    have hbelow : ∀ rest, branch.child .optional <+: branch.child .optional ++ [rest] ∧
        branch.child .optional ++ [rest] ≠ branch.child .optional := fun rest =>
      ⟨List.prefix_append _ _, by simp⟩
    exact .of_notMem (hgone c _ (hσ.climbs_child hclimbs ha hslot) (hbelow _))
      (hcame d _ (hσ'.climbs_child hclimbs' hb hslot') (hbelow _))
  | _ => exact htoggles.elim

section Back

variable {μ μ' : Handle → Option Node} (hmirrors : editor.Mirrors ν) (hnext : next.Mirrors μ)
  (hother : other.Mirrors ν') (hturns : editor.store.Turns edit ν next.store μ)
  (hturns' : other.store.Turns edit.invert ν' last.store μ') (hS : editor.store.Lineage S)
  (hlive : ∀ h ∈ S, next.store.Live h) (hshares : next.Shares S other)

include hnext hother hturns hturns' hS hlive hshares

/-- What was not made by an edit is not removed when the edit is taken back. -/
theorem live_back (hh : h ∈ S) : last.store.Live h := by
  refine (hturns'.gone h (hshares.live h hh)).mpr ?_
  rintro ⟨path, hpath, hdiscards⟩
  have hpath' := (hshares.climbs_iff hnext hother (hturns.lineage hS hlive) hh).mp hpath
  exact (hturns.came h (hlive h hh)).mpr ⟨path, hpath', (edit.discards_invert path).mp hdiscards⟩
    (hS.live h hh)

include hmirrors

/-- A state that is not that of an optional child which is assigned or unassigned is as it was. -/
theorem body_back (hh : h ∈ S) (hpath : editor.store.Climbs h path)
    (htoggles : ¬ edit.Toggles path) :
    last.store.stage? h = editor.store.stage? h ∧
      ∀ name, Option.Rel (Branch.Corresponds (SameAmong S)) (editor.store.branch? h name)
        (last.store.branch? h name) := by
  have hclimbs : ∀ {path}, other.store.Climbs h path ↔ next.store.Climbs h path :=
    hshares.climbs_iff hnext hother (hturns.lineage hS hlive) hh
  obtain ⟨path', hpath'⟩ := hnext.standing.rooted h (hlive h hh)
  have htoggles' : ¬ edit.invert.Toggles path' := fun htoggled => by
    rw [Edit.toggles_invert] at htoggled
    have hbefore := (hturns.climbs_toggled hmirrors.standing hnext.standing htoggled).mp hpath'
    exact htoggles (hpath.unique hbefore ▸ htoggled)
  obtain ⟨owner, howner, hsite, hkept⟩ := hturns.revises
  obtain ⟨owner', howner', hsite', hkept'⟩ := hturns'.revises
  rw [Edit.site_invert] at howner' hsite' hkept'
  obtain ⟨hstage, hbranch⟩ := hkept h path hpath (hlive h hh) htoggles
  obtain ⟨hstage', hbranch'⟩ := hkept' h path' (hclimbs.mpr hpath')
    (live_back hnext hother hturns hturns' hS hlive hshares hh) htoggles'
  refine ⟨hstage'.trans ((hshares.stages h hh).trans hstage), fun name => ?_⟩
  -- The owner of the property has the same path all along.
  have hnextOwner := hturns.climbs_owner hnext.standing howner
  have hsame : h = owner ↔ h = owner' := by
    constructor
    · rintro rfl
      exact hother.standing.climbs_inj (hclimbs.mpr hnextOwner) howner'
    · rintro rfl
      exact hnext.standing.climbs_inj (hclimbs.mp howner') hnextOwner
  have hrel := hshares.branches h hh name
  by_cases hat : h = owner ∧ name = edit.site.property
  · obtain ⟨rfl, rfl⟩ := hat
    obtain rfl := hsame.mp rfl
    exact Edit.Rewrites.rel_back hsite hsite' (fun c hgone hc => hgone (hlive c hc))
      (fun c hcame hc => hcame (hshares.live c hc)) hrel
  · have hne : h ≠ owner ∨ name ≠ edit.site.property := not_and_or.mp hat
    rw [← hbranch name hne, hbranch' name (hne.imp_left (mt hsame.mpr))]
    exact hrel

end Back

/-- Taking an edit back preserves what two editors share: they share in the end what the editor
after the edit shares with the one in which the edit is taken back. -/
theorem Shares.back (hmirrors : editor.Mirrors ν) (hother : other.Mirrors ν')
    (hedit : edit.WellFormed) (happly : editor.apply edit = .ok next)
    (hback : other.apply edit.invert = .ok last)
    (hS : editor.store.Lineage S) (hlive : ∀ h ∈ S, next.store.Live h)
    (hshares : next.Shares S other) : editor.Shares S last := by
  obtain ⟨μ, hnext, hturns, heffect, hgrammar⟩ := turns_of_apply hmirrors hedit happly
  obtain ⟨μ', hlast, hturns', heffect', hgrammar'⟩ := turns_of_apply hother hedit.invert hback
  obtain ⟨_, -, hbecomes⟩ := (apply_becomes ⟨ν, hmirrors⟩ hedit).of_eq_ok happly
  obtain ⟨_, -, hbecomes'⟩ := (apply_becomes ⟨ν', hother⟩ hedit.invert).of_eq_ok hback
  have hbody : ∀ h ∈ S, last.store.stage? h = editor.store.stage? h ∧
      ∀ name, Option.Rel (Branch.Corresponds (SameAmong S)) (editor.store.branch? h name)
        (last.store.branch? h name) := by
    intro h hh
    obtain ⟨path, hpath⟩ := hmirrors.standing.rooted h (hS.live h hh)
    by_cases htoggles : edit.Toggles path
    · have hnextPath :=
        (hturns.climbs_toggled hmirrors.standing hnext.standing htoggles).mpr hpath
      have hotherPath :=
        (hshares.climbs_iff hnext hother (hturns.lineage hS hlive) hh).mpr hnextPath
      have hlastPath := (hturns'.climbs_toggled hother.standing hlast.standing
        ((edit.toggles_invert path).mpr htoggles)).mpr hotherPath
      rw [hshares.grammar, hgrammar] at heffect'
      refine toggled_back hmirrors hlast (hgrammar'.trans (hshares.grammar.trans hgrammar)) htoggles
        hpath hlastPath heffect hother.wellFormed heffect' (fun g below hbelow hdiscards hg => ?_)
        fun g below hbelow hinstalls hg => ?_
      · exact (hturns.gone g hbelow.live).mp (hlive g hg) ⟨below, hbelow, hdiscards⟩
      · exact (hturns'.came g hbelow.live).mpr ⟨below, hbelow, hinstalls⟩ (hshares.live g hg)
    · exact body_back hmirrors hnext hother hturns hturns' hS hlive hshares hh hpath htoggles
  exact ⟨hgrammar'.trans (hshares.grammar.trans hgrammar),
    hbecomes'.alike.root.trans (hshares.root.trans hbecomes.alike.root),
    fun h hh => live_back hnext hother hturns hturns' hS hlive hshares hh,
    fun h hh => (hbody h hh).1, fun h hh => (hbody h hh).2⟩

/-! ## Several edits -/

/-- A handle is live before edits that are made one after the other, and after each of them. -/
def Outlives (editor : Editor) (edits : List Edit) (h : Handle) : Prop :=
  ∀ done, done <+: edits → ∀ between, done.foldlM apply editor = .ok between → between.store.Live h

/-- What outlives edits is live before them. -/
theorem Outlives.live (houtlives : editor.Outlives made h) : editor.store.Live h :=
  houtlives [] List.nil_prefix editor rfl

/-- What outlives an edit and those after it is live before that edit and outlives the others. -/
theorem outlives_cons : editor.Outlives (edit :: made) h ↔
    editor.store.Live h ∧ ∀ next, editor.apply edit = .ok next → next.Outlives made h := by
  constructor
  · intro houtlives
    refine ⟨houtlives.live, fun next happly done hdone between hbetween => ?_⟩
    refine houtlives (edit :: done) (List.cons_prefix_cons.mpr ⟨rfl, hdone⟩) between ?_
    rw [List.foldlM_cons, happly]
    exact hbetween
  · rintro ⟨hlive, houtlives⟩ done hdone between hbetween
    rcases List.prefix_cons_iff.mp hdone with rfl | ⟨rest, rfl, hrest⟩
    · cases hbetween
      exact hlive
    · obtain ⟨next, happly, hnext⟩ := bind_eq_ok.mp hbetween
      exact houtlives next happly rest hrest between hnext

/-- What is above a handle that outlives edits outlives them too. -/
theorem lineage_outlives (hsound : editor.Sound) (hmade : ∀ edit ∈ made, edit.WellFormed) :
    editor.store.Lineage {h | editor.Outlives made h} where
  live _ houtlives := houtlives.live
  parent := by
    induction made generalizing editor with
    | nil =>
      rintro h houtlives parent name slot hplace done hdone between hbetween
      obtain rfl := List.prefix_nil.mp hdone
      cases hbetween
      obtain ⟨ν, hmirrors⟩ := hsound
      exact hmirrors.standing.parent_live hplace
    | cons edit made ih =>
      rintro h houtlives parent name slot hplace
      obtain ⟨hedit, hmade⟩ := List.forall_mem_cons.mp hmade
      obtain ⟨hlive, houtlives⟩ := outlives_cons.mp houtlives
      obtain ⟨ν, hmirrors⟩ := hsound
      refine outlives_cons.mpr ⟨hmirrors.standing.parent_live hplace, fun next happly => ?_⟩
      obtain ⟨ν', hnext, hturns, -⟩ := turns_of_apply hmirrors hedit happly
      obtain ⟨slot', hplace'⟩ := (hturns.within_iff hlive (houtlives next happly).live).mpr
        ⟨slot, hplace⟩
      exact ih ⟨ν', hnext⟩ hmade h (houtlives next happly) parent name slot' hplace'

/-- Edits that were made one after the other are taken back one after the other: the first one last,
in an editor in which the others have been taken back. -/
theorem exists_of_back {between : Editor} (hsound : editor.Sound)
    (hedits : ∀ e ∈ edit :: made, e.WellFormed)
    (hmade : (edit :: made).foldlM apply editor = .ok between)
    (hback : ((edit :: made).reverse.map Edit.invert).foldlM apply between = .ok last) :
    ∃ next other, editor.apply edit = .ok next ∧ next.Sound ∧ made.foldlM apply next = .ok between ∧
      (made.reverse.map Edit.invert).foldlM apply between = .ok other ∧ other.Sound ∧
        other.apply edit.invert = .ok last := by
  obtain ⟨hedit, hedits⟩ := List.forall_mem_cons.mp hedits
  obtain ⟨next, happly, hmade⟩ := bind_eq_ok.mp hmade
  rw [List.reverse_cons, List.map_append, List.foldlM_append] at hback
  obtain ⟨other, hother, hback⟩ := bind_eq_ok.mp hback
  obtain ⟨_, hlast, hback⟩ := bind_eq_ok.mp hback
  cases hback
  obtain ⟨_, -, hnext⟩ := (apply_becomes hsound hedit).of_eq_ok happly
  have hbetween := (foldlM_apply_eq_ok hnext.sound hedits hmade).2.1
  exact ⟨next, other, happly, hnext.sound, hmade, hother,
    (foldlM_apply_eq_ok hbetween (Edit.wellFormed_inverses hedits) hother).2.1, hlast⟩

/-- When edits are taken back the handles that outlived them are as they were. -/
theorem shares_of_back {between : Editor} (hsound : editor.Sound)
    (hedits : ∀ edit ∈ made, edit.WellFormed) (hmade : made.foldlM apply editor = .ok between)
    (hback : (made.reverse.map Edit.invert).foldlM apply between = .ok last)
    (hS : editor.store.Lineage S) (houtlives : ∀ h ∈ S, editor.Outlives made h) :
    editor.Shares S last := by
  induction made generalizing editor last with
  | nil =>
    cases hmade
    cases hback
    exact .refl hS
  | cons edit made ih =>
    obtain ⟨next, other, happly, hnext, hmade, hother, ⟨ν', hmirrors'⟩, hlast⟩ :=
      exists_of_back hsound hedits hmade hback
    obtain ⟨hedit, hedits⟩ := List.forall_mem_cons.mp hedits
    obtain ⟨ν, hmirrors⟩ := hsound
    obtain ⟨_, -, hturns, -⟩ := turns_of_apply hmirrors hedit happly
    have hafter : ∀ h ∈ S, next.Outlives made h := fun h hh =>
      (outlives_cons.mp (houtlives h hh)).2 next happly
    have hlive : ∀ h ∈ S, next.store.Live h := fun h hh => (hafter h hh).live
    exact .back hmirrors hmirrors' hedit happly hlast hS hlive
      (ih hnext hedits hmade hother (hturns.lineage hS hlive) hafter)

/-! ## Edits that remove nothing -/

/-- Edits that remove no states are outlived by all handles. -/
theorem outlives_of_live (hsound : editor.Sound) (hedits : ∀ edit ∈ made, edit.WellFormed)
    (hkeeps : ∀ edit ∈ made, ∀ path, ¬ edit.Discards path) (hlive : editor.store.Live h) :
    editor.Outlives made h := by
  induction made generalizing editor with
  | nil =>
    intro done hdone between hbetween
    obtain rfl := List.prefix_nil.mp hdone
    cases hbetween
    exact hlive
  | cons edit made ih =>
    obtain ⟨hedit, hedits⟩ := List.forall_mem_cons.mp hedits
    obtain ⟨hkeep, hkeeps⟩ := List.forall_mem_cons.mp hkeeps
    refine outlives_cons.mpr ⟨hlive, fun next happly => ?_⟩
    obtain ⟨ν, hmirrors⟩ := hsound
    obtain ⟨μ, hnext, hturns, -⟩ := turns_of_apply hmirrors hedit happly
    refine ih ⟨μ, hnext⟩ hedits hkeeps ((hturns.gone h hlive).mpr ?_)
    rintro ⟨path, -, hdiscards⟩
    exact hkeep path hdiscards

/-- When they are taken back no other handles are live. -/
theorem live_of_back {between : Editor} (hsound : editor.Sound)
    (hedits : ∀ edit ∈ made, edit.WellFormed)
    (hkeeps : ∀ edit ∈ made, ∀ path, ¬ edit.Discards path)
    (hmade : made.foldlM apply editor = .ok between)
    (hback : (made.reverse.map Edit.invert).foldlM apply between = .ok last)
    (hlive : last.store.Live h) : editor.store.Live h := by
  induction made generalizing editor last with
  | nil =>
    cases hmade
    cases hback
    exact hlive
  | cons edit made ih =>
    obtain ⟨next, other, happly, hnext, hmade, hother, ⟨ν', hmirrors'⟩, hlast⟩ :=
      exists_of_back hsound hedits hmade hback
    obtain ⟨hedit, hedits⟩ := List.forall_mem_cons.mp hedits
    obtain ⟨hkeep, hkeeps⟩ := List.forall_mem_cons.mp hkeeps
    obtain ⟨ν, hmirrors⟩ := hsound
    obtain ⟨μ, hafter, hturns, -⟩ := turns_of_apply hmirrors hedit happly
    obtain ⟨_, -, hturns', -⟩ := turns_of_apply hmirrors' hedit.invert hlast
    -- Taking the edit back makes nothing, since the edit removed nothing.
    have hotherLive : other.store.Live h := by
      by_contra hnew
      obtain ⟨path, -, hinstalls⟩ := (hturns'.came h hlive).mp hnew
      exact hkeep path ((edit.installs_invert path).mp hinstalls)
    have hnextLive := ih hnext hedits hkeeps hmade hother hotherLive
    -- And it removes what the edit made.
    by_contra hnew
    obtain ⟨path, hpath, hinstalls⟩ := (hturns.came h hnextLive).mp hnew
    have hlineage : next.store.Lineage {g | next.store.Live g} := lineage_live hafter
    have hshares := shares_of_back hnext hedits hmade hother hlineage fun g hg =>
      outlives_of_live hnext hedits hkeeps hg
    exact (hturns'.gone h hotherLive).mp hlive ⟨path,
      (hshares.climbs_iff hafter hmirrors' hlineage hnextLive).mpr hpath,
      (edit.discards_invert path).mpr hinstalls⟩

end Editor

end TreeEditor
