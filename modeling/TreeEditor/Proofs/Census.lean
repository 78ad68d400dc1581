import TreeEditor.Node.Walk
import TreeEditor.Proofs.Audit
import TreeEditor.Proofs.Toggling
import TreeEditor.Proofs.Truth

/-!
# Nodes and states counted

The nodes of a document and the states of an editor are counted by walks of their own: one enters
patterns, sources and retained items, the other one passes them over but meets the empty slots of
optional children. Under the free grammar the two counts differ by exactly that
(`Editor.count_accounts`).

A node has below it its children, the nodes of the headers of its blocks and its retained items
(`Node.count_eq`), and the states that its state holds are those of its children, with the empty
slots (`Settled.sum_children`). A state other than the root is held by one state and by no other one
(`Standing.perm_handles`). So when the nodes of all states are counted with everything below them,
the children cancel (`Standing.sum_handles`), and what remains is a one for every node that has a
state, together with the nodes that were set aside.
-/

namespace TreeEditor

/-- The sum over what is made of each item is the sum of the sums. -/
theorem sum_map_flatMap {α β : Type} (items : List α) (f : α → List β) (g : β → Nat) :
    ((items.flatMap f).map g).sum = (items.map fun item => ((f item).map g).sum).sum := by
  rw [List.map_flatMap, List.flatMap_def, List.sum_flatten, List.map_map]
  rfl

/-- A step of a walk that enters a node. -/
def Visit.entersNode : Visit → Bool
  | enter _ => true
  | _ => false

/-! ## The nodes under a property -/

namespace Property

variable {α : Type}

/-- The patterns and sources of the blocks of a property. -/
def headerNodes : Property α → List α
  | blockList blocks => blocks.flatMap fun block => [block.header.pattern, block.header.source]
  | _ => []

/-- The item that an optional child retains while it is not assigned. -/
def retained : Property α → List α
  | optional false item => item.toList
  | _ => []

/-- The nodes under a property are its children, the nodes of headers and retained items. -/
theorem perm_nodes (P : Property α) :
    P.nodes.Perm (P.children.map Prod.snd ++ (P.headerNodes ++ P.retained)) := by
  cases P with
  | value leaf => exact .refl _
  | child node => exact .refl _
  | optional assigned item => cases assigned <;> cases item <;> exact .refl _
  | list nodes =>
    rw [children, map_snd_listSlots]
    simp [headerNodes, retained, Property.nodes]
  | blockList blocks =>
    have hblock : (blockList blocks).nodes = blocks.flatMap fun block =>
        [block.header.pattern, block.header.source] ++ block.members := rfl
    have hretained : (blockList blocks).retained = [] := rfl
    rw [children, map_snd_blockSlots, hretained, List.append_nil, hblock]
    exact (List.flatMap_append_perm blocks _ _).symm.trans List.perm_append_comm

/-- The steps for a property enter what those for the nodes under it enter. -/
theorem countP_walk (child : α → List Visit) (name : String) (P : Property α) :
    (P.walk false child name).countP Visit.entersNode =
      (P.nodes.map fun node => (child node).countP Visit.entersNode).sum := by
  cases P with
  | blockList blocks =>
    have hblock : ∀ block : Block α α,
        (Visit.block block.header.replication block.members.length ::
          (([block.header.pattern, block.header.source] ++ block.members).flatMap child)).countP
            Visit.entersNode =
        ((block.header.pattern :: block.header.source :: block.members).map fun node =>
          (child node).countP Visit.entersNode).sum := fun block => by
      rw [List.countP_cons, List.countP_flatMap]
      rfl
    rw [nodes, sum_map_flatMap, walk, List.countP_cons, List.countP_flatMap]
    simp only [← hblock]
    rfl
  | _ => simp [walk, nodes, List.countP_flatMap, Visit.entersNode, Function.comp_def]

end Property

namespace Node

/-- The patterns and sources of the blocks of a node. -/
def headerNodes (node : Node) : List Node :=
  node.properties.flatMap fun entry => entry.2.headerNodes

/-- The items that the optional children of a node retain while they are not assigned. -/
def retained (node : Node) : List Node := node.properties.flatMap fun entry => entry.2.retained

/-- A node counts once, and so does everything under its properties. -/
theorem count_eq_nodes (node : Node) : node.count =
    1 + (node.properties.map fun entry => (entry.2.nodes.map count).sum).sum := by
  obtain ⟨kind, properties⟩ := node
  have hresults : (results (properties.map fun entry => (entry.1, entry.2.map (withResult fun _ =>
      fun properties => 1 + (results properties).foldr (· + ·) 0)))) =
      properties.flatMap fun entry => entry.2.nodes.map count := by
    rw [results, List.flatMap_map]
    simp only [Property.nodes_map, List.map_map]
    rfl
  have hsum := sum_map_flatMap properties (fun entry => entry.2.nodes.map count) id
  simp only [List.map_id] at hsum
  rw [count, fold_mk, hresults, ← List.sum_eq_foldr, hsum, properties_mk]

/-- A node counts once, and so do its children, the nodes of its headers and its retained items,
with all that is below them. -/
theorem count_eq (node : Node) : node.count =
    1 + (node.properties.map fun entry =>
        (entry.2.children.map fun child => child.2.count).sum).sum +
      (node.headerNodes.map count).sum + (node.retained.map count).sum := by
  have hsplit : ∀ P : Property Node, (P.nodes.map count).sum =
      (P.children.map fun child => child.2.count).sum +
        ((P.headerNodes.map count).sum + (P.retained.map count).sum) := fun P => by
    rw [(P.perm_nodes.map count).sum_eq, List.map_append, List.map_append, List.sum_append,
      List.sum_append, List.map_map]
    rfl
  rw [count_eq_nodes, headerNodes, retained, sum_map_flatMap, sum_map_flatMap]
  simp only [hsplit, List.sum_map_add]
  omega

/-- A walk that leaves nothing out enters every node that is counted, once. -/
theorem countP_walk (node : Node) : (node.walk false).countP Visit.entersNode = node.count := by
  induction node using Node.induct with
  | step node ih =>
    obtain ⟨kind, properties⟩ := node
    have hproperties : ∀ entry ∈ properties,
        ((entry.2.map (withResult fun kind properties => Visit.enter kind ::
          (properties.flatMap fun entry => entry.2.walk false Prod.snd entry.1) ++ [.leave])).walk
            false Prod.snd entry.1).countP Visit.entersNode =
          (entry.2.nodes.map count).sum := by
      intro entry hentry
      rw [Property.countP_walk, Property.nodes_map, List.map_map]
      exact congrArg List.sum (List.map_congr_left fun child hchild => ih entry hentry child hchild)
    rw [walk, fold_mk, List.cons_append, List.countP_cons, List.countP_append, List.flatMap_map,
      List.countP_flatMap, Function.comp_def, List.map_congr_left hproperties, count_eq_nodes,
      properties_mk]
    simp [Visit.entersNode, Nat.add_comm]

end Node

/-! ## Children of states -/

section Children

variable {ν : Handle → Option Node} {f : Node → Nat}

/-- A sum over the children in some slots is that over the states in these slots. -/
theorem sum_labels {children : List (Slot × Node)} {slots : List (Slot × Handle)}
    (h : List.Forall₂ (fun a b => a.1 = b.1 ∧ Labels ν a.2 b.2) children slots) (f : Node → Nat) :
    ((slots.map Prod.snd).map fun c => (ν c).elim 0 f).sum =
      (children.map fun child => f child.2).sum := by
  induction h with
  | nil => rfl
  | cons hentry _ ih =>
    have hlabel : ν _ = some _ := hentry.2
    rw [List.map_cons, List.map_cons, List.map_cons, List.sum_cons, List.sum_cons, ih, hlabel]
    rfl

/-- A sum over the children of a property is that over the states of the branch that reflects it,
where empty slots add nothing. -/
theorem Reflects.sum_children {P : Property Node} {branch : Branch} (h : Reflects ν P branch)
    (f : Node → Nat) : (branch.children.map fun c => (ν c).elim 0 f).sum =
      (P.children.map fun child => f child.2).sum := by
  cases h with
  | placeholder label => exact sum_labels (.cons ⟨rfl, label⟩ .nil) f
  | @optional assigned item child label =>
    -- A retained item is no child, and the state of its slot has no node.
    have hslot : (Branch.optional child).children = [child] := rfl
    rw [hslot, List.map_singleton, List.sum_singleton, label]
    cases assigned <;> cases item <;> rfl
  | list labels => exact sum_labels (forall₂_listSlots labels) f
  | blockList labels => exact sum_labels (forall₂_blockSlots labels) f

/-- Sums over the children of properties are those over the states of the branches that match
them. -/
theorem sum_matches {found : List (String × Property Node)} {branches : List (String × Branch)}
    (h : List.Forall₂ (Matches ν) found branches) (f : Node → Nat) :
    (branches.map fun held => (held.2.children.map fun c => (ν c).elim 0 f).sum) =
      found.map fun entry => (entry.2.children.map fun child => f child.2).sum := by
  induction h with
  | nil => rfl
  | cons hmatch _ ih => rw [List.map_cons, List.map_cons, ih, hmatch.reflects.sum_children]

/-- A sum over the children of all properties is that over the children of those that bear any. -/
theorem sum_bearing (properties : List (String × Property Node)) (f : Node → Nat) :
    ((properties.filter fun entry => entry.2.kind.bearsChildren).map fun entry =>
        (entry.2.children.map fun child => f child.2).sum).sum =
      (properties.map fun entry => (entry.2.children.map fun child => f child.2).sum).sum := by
  induction properties with
  | nil => rfl
  | cons entry properties ih =>
    obtain ⟨name, P⟩ := entry
    rw [List.map_cons, List.sum_cons, ← ih]
    cases P with
    | value leaf => exact (Nat.zero_add _).symm
    | _ => rfl

/-- Under the free grammar a sum over the children of a node is that over the states that its state
holds. -/
theorem Settled.sum_children {state : State} {node : Node}
    (h : Settled .free ν state (some node)) (f : Node → Nat) :
    ((state.branches.flatMap fun held => held.2.children).map fun c => (ν c).elim 0 f).sum =
      (node.properties.map fun entry => (entry.2.children.map fun child => f child.2).sum).sum := by
  cases h with
  | @ready _ found stage keys shape reflects =>
    have hfound : found = node.properties.filter fun entry => entry.2.kind.bearsChildren :=
      (Except.ok.inj shape).symm
    rw [sum_map_flatMap, sum_matches reflects, hfound, sum_bearing]

end Children

namespace Standing

variable {grammar : Grammar} {root : Handle} {σ : Store} {ν : Handle → Option Node}

/-- Every state but the root is a child of one state. -/
theorem perm_handles (hσ : Standing grammar root σ ν ∅ ∅) :
    σ.arena.handles.Perm (root :: σ.arena.toList.flatMap fun entry =>
      entry.2.branches.flatMap fun held => held.2.children) := by
  have hchild : ∀ entry ∈ σ.arena.toList, ∀ c, σ.Child entry.1 c ↔
      c ∈ entry.2.branches.flatMap fun held => held.2.children := fun entry hentry =>
    hσ.child_iff (Arena.mem_toList.mp hentry)
  have hroot := (hσ.root_iff root).mpr rfl
  have hapart : σ.arena.toList.Pairwise fun a b => a.1 ≠ b.1 :=
    List.pairwise_map.mp (Arena.nodup_handles σ.arena)
  refine (List.perm_ext_iff_of_nodup (Arena.nodup_handles _) (List.nodup_cons.mpr ⟨?_, ?_⟩)).mpr ?_
  · -- The root stands in no slot.
    intro hmem
    obtain ⟨entry, hentry, hc⟩ := List.mem_flatMap.mp hmem
    obtain ⟨name, slot, hplace⟩ := (hchild entry hentry root).mpr hc
    rw [hroot] at hplace
    cases hplace
  · -- A state holds each of its children once, and no child of another state.
    refine List.nodup_flatMap.mpr ⟨fun entry hentry => ?_, hapart.imp_of_mem ?_⟩
    · exact hσ.nodup_children (Arena.mem_toList.mp hentry) (Set.notMem_empty _)
    · intro a b ha hb hne c hc hc'
      obtain ⟨name, slot, hplace⟩ := (hchild a ha c).mpr hc
      obtain ⟨name', slot', hplace'⟩ := (hchild b hb c).mpr hc'
      rw [hplace] at hplace'
      injection hplace' with hplace'
      injection hplace' with hparent
      exact hne hparent
  · -- A state is the root, or it stands in a slot of a state, which is then its parent.
    intro g
    rw [Arena.mem_handles, List.mem_cons, List.mem_flatMap]
    constructor
    · rintro ⟨state, hstate⟩
      have hplace : σ.place? g = some state.place := Store.place?_eq_some.mpr ⟨state, hstate, rfl⟩
      cases hat : state.place with
      | root =>
        rw [hat] at hplace
        exact .inl ((hσ.root_iff g).mp hplace)
      | within parent name slot =>
        rw [hat] at hplace
        obtain ⟨above, habove⟩ := hσ.parent_live hplace
        have hmem := Arena.mem_toList.mpr habove
        exact .inr ⟨_, hmem, (hchild _ hmem g).mp ⟨name, slot, hplace⟩⟩
    · rintro (rfl | ⟨entry, hentry, hc⟩)
      · exact Store.live_of_place? hroot
      · obtain ⟨name, slot, hplace⟩ := (hchild entry hentry g).mpr hc
        exact Store.live_of_place? hplace

/-- Let the weight of a node be a share of its own and the weights of its children. Then the weight
of the node of the root is the sum of the shares of the nodes of all states. -/
theorem sum_handles (hσ : Standing .free root σ ν ∅ ∅) (weight share : Node → Nat)
    (hweight : ∀ node : Node, weight node = share node +
      (node.properties.map fun entry =>
        (entry.2.children.map fun child => weight child.2).sum).sum) :
    (ν root).elim 0 weight = (σ.arena.handles.map fun h => (ν h).elim 0 share).sum := by
  have heach : ∀ entry ∈ σ.arena.toList, (ν entry.1).elim 0 weight = (ν entry.1).elim 0 share +
      ((entry.2.branches.flatMap fun held => held.2.children).map fun c =>
        (ν c).elim 0 weight).sum := by
    intro entry hentry
    have hsettled := hσ.settled entry.1 entry.2 (Arena.mem_toList.mp hentry) (Set.notMem_empty _)
    cases hlabel : ν entry.1 with
    | none =>
      rw [hlabel] at hsettled
      cases hsettled with
      | vacant stage branches => simp [branches]
    | some node =>
      rw [hlabel] at hsettled
      rw [hsettled.sum_children]
      exact hweight node
  -- Counted by their parents, all states but the root add their weights once more.
  have hall := (hσ.perm_handles.map fun h => (ν h).elim 0 weight).sum_eq
  rw [List.map_cons, List.sum_cons, sum_map_flatMap] at hall
  have hsplit : (σ.arena.handles.map fun h => (ν h).elim 0 weight).sum =
      (σ.arena.handles.map fun h => (ν h).elim 0 share).sum +
        (σ.arena.toList.map fun entry => ((entry.2.branches.flatMap fun held =>
          held.2.children).map fun c => (ν c).elim 0 weight).sum).sum := by
    rw [Arena.handles, List.map_map, List.map_map, ← List.sum_map_add]
    exact congrArg List.sum (List.map_congr_left heach)
  omega

end Standing

/-- What optional values add up to is what those that are there add up to. -/
theorem sum_elim {α β : Type} (items : List α) (f : α → Option β) (g : β → Nat) :
    (items.map fun item => (f item).elim 0 g).sum = ((items.filterMap f).map g).sum := by
  induction items with
  | nil => rfl
  | cons item items ih =>
    rw [List.map_cons, List.sum_cons, ih, List.filterMap_cons]
    cases f item with
    | none => exact Nat.zero_add _
    | some value => rfl

namespace Editor

variable {editor : Editor} {ν : Handle → Option Node}

/-- The number of states that stand in the empty slots of optional children. -/
def vacancies (editor : Editor) : Nat :=
  editor.store.arena.toList.countP fun entry => entry.2.stage = .vacant

/-- The nodes of the ready states. -/
def mirrored (editor : Editor) : List Node :=
  (editor.store.arena.toList.filter fun entry => entry.2.stage = .ready).filterMap fun entry =>
    editor.node? entry.1

/-- The nodes of the ready states are those that the states are labelled with. -/
theorem mirrored_eq (hmirrors : editor.Mirrors ν) :
    editor.mirrored = editor.store.arena.handles.filterMap ν := by
  rw [mirrored, Arena.handles, List.filterMap_map, List.filterMap_filter]
  refine List.filterMap_congr fun entry hentry => ?_
  have hstate : editor.store.get? entry.1 = some entry.2 := Arena.mem_toList.mp hentry
  have hready := isSome_node?_iff hmirrors hstate
  rw [node?_eq hmirrors ⟨entry.2, hstate⟩] at hready ⊢
  simp only [← hready, decide_eq_true_eq, Function.comp_apply]
  cases ν entry.1 <;> rfl

/-- Every ready state has a node. -/
theorem length_mirrored (hmirrors : editor.Mirrors ν) : editor.mirrored.length =
    editor.store.arena.toList.countP fun entry => entry.2.stage = .ready := by
  rw [mirrored_eq hmirrors, List.length_filterMap_eq_countP, Arena.handles, List.countP_map]
  refine List.countP_congr fun entry hentry => ?_
  have hstate : editor.store.get? entry.1 = some entry.2 := Arena.mem_toList.mp hentry
  have hready := isSome_node?_iff hmirrors hstate
  rw [node?_eq hmirrors ⟨entry.2, hstate⟩] at hready
  simpa using hready

/-- A state has a node or is vacant. -/
theorem stateCount_eq (hmirrors : editor.Mirrors ν) :
    editor.stateCount = editor.mirrored.length + editor.vacancies := by
  have hnot : editor.vacancies = editor.store.arena.toList.countP fun entry =>
      ¬ entry.2.stage = .ready := by
    refine List.countP_congr fun entry hentry => ?_
    have hstate : editor.store.get? entry.1 = some entry.2 := Arena.mem_toList.mp hentry
    have hready := isSome_node?_iff hmirrors hstate
    have hvacant := node?_eq_none_iff hmirrors hstate
    rw [← Option.not_isSome_iff_eq_none, hready] at hvacant
    simpa using hvacant.symm
  rw [length_mirrored hmirrors, hnot, stateCount, ← Arena.length_handles hmirrors.standing.arena,
    Arena.handles, List.length_map,
    List.length_eq_countP_add_countP fun entry => entry.2.stage = .ready]
  simp

/-- Whatever was asked of an editor under the free grammar before, the number of nodes in its
document and the number of its states account for each other. The walk over the document enters, in
addition to the nodes that have a state, the patterns and sources of blocks and the retained items
of optional children, with all that is below them; the states are, in addition to those that have a
node, the vacant ones. -/
theorem count_accounts (h : editor.Reachable) (hfree : editor.grammar = .free) :
    editor.document.count + editor.vacancies =
      editor.stateCount + ((editor.mirrored.flatMap Node.headerNodes).map Node.count).sum +
        ((editor.mirrored.flatMap Node.retained).map Node.count).sum ∧
    (editor.document.walk false).countP Visit.entersNode = editor.document.count ∧
    editor.mirrored.length =
      editor.store.arena.toList.countP fun entry => entry.2.stage = .ready := by
  obtain ⟨ν, hmirrors⟩ := h.steady.sound
  have hstanding := hmirrors.standing
  rw [hfree] at hstanding
  have hsum := hstanding.sum_handles Node.count (fun node =>
    1 + (node.headerNodes.map Node.count).sum + (node.retained.map Node.count).sum) fun node => by
      have hcount := node.count_eq
      omega
  rw [hmirrors.document, sum_elim, ← mirrored_eq hmirrors] at hsum
  simp only [Option.elim_some, List.sum_map_add, ← sum_map_flatMap, List.map_const',
    List.sum_replicate, smul_eq_mul, mul_one] at hsum
  have hstates := stateCount_eq hmirrors
  exact ⟨by omega, editor.document.countP_walk, length_mirrored hmirrors⟩

/-- A run in which the item of an optional child is put aside and a block is split. -/
def rearranging : List Request :=
  [.command (.unassign (.within ⟨0, 0⟩ "more" .optional)),
    .command (.splitBlock ⟨⟨0, 0⟩, "groups"⟩ 0 1)]

/-- After such a run there are fifteen nodes and nine states, two of them vacant: the three blocks
have six nodes in their headers, and two items are retained. -/
theorem count_accounts_rearranging : ∃ editor : Editor, editor.Reachable ∧
    editor.grammar = .free ∧ editor.document.count = 15 ∧ editor.vacancies = 2 ∧
    editor.stateCount = 9 ∧
    ((editor.mirrored.flatMap Node.headerNodes).map Node.count).sum +
      ((editor.mirrored.flatMap Node.retained).map Node.count).sum = 8 := by
  have hrequests : ∀ request ∈ rearranging, request.WellFormed := by decide
  obtain ⟨start, hstart, htest⟩ := exists_start (d := .sample) (g := .free) (s := .standard)
    (p := fun start => match runAll rearranging start with
      | .error _ => false
      | .ok (_, last) => last.document.count = 15 && last.vacancies = 2 && last.stateCount = 9)
    (by cbv)
  split at htest
  · cases htest
  · rename_i answers last hrun
    simp only [Bool.and_eq_true, decide_eq_true_eq] at htest
    obtain ⟨⟨hcount, hvacant⟩, hstates⟩ := htest
    have hfree : last.grammar = .free := grammar_of_run Node.wellFormed_sample
      Grammar.distinct_free hstart hrequests hrun
    have hreachable : last.Reachable := ⟨.sample, .free, .standard, start, rearranging, answers,
      Node.wellFormed_sample, Grammar.distinct_free, hstart, hrequests, hrun⟩
    obtain ⟨haccounts, -, -⟩ := count_accounts hreachable hfree
    exact ⟨last, hreachable, hfree, hcount, hvacant, hstates, by omega⟩

end Editor

end TreeEditor
