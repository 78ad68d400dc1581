import TreeEditor.Proofs.Agreement
import TreeEditor.Proofs.Audit

/-!
# What a passed audit guarantees

The audit is run on whatever states and document an editor holds, so a passed one has to speak for
itself. Nothing is assumed here of how the states came about: only that the root stands at the root,
that the arena has counted its states right, and that no node of the document has two properties of
one name.

Going down from the root the audit finds every state that it comes to in its place
(`Store.Visits`): the way up from the state leads back along the way down, and the state suits what
the document has at its path (`Store.Suits`). States in different slots of one state have nothing
below them in common, so the audit comes to no state twice, and what it counts is at most the number
of states. When it is that number it has come to all of them (`Editor.audited_of_verify`).
-/

namespace TreeEditor

/-- Two lists agree item by item, and each pair of items counts for a number. -/
inductive Counted {α β : Type} (R : α → β → Nat → Prop) : List α → List β → Nat → Prop where
  | nil : Counted R [] [] 0
  | cons {a : α} {b : β} {m : Nat} {as : List α} {bs : List β} {n : Nat} (head : R a b m)
    (tail : Counted R as bs n) : Counted R (a :: as) (b :: bs) (m + n)

/-- Lists that agree and count agree. -/
theorem Counted.forall₂ {α β : Type} {R : α → β → Nat → Prop} {Q : α → β → Prop} {as : List α}
    {bs : List β} {n : Nat} (h : Counted R as bs n) (hQ : ∀ a b m, R a b m → Q a b) :
    List.Forall₂ Q as bs := by
  induction h with
  | nil => exact .nil
  | cons head _ ih => exact .cons (hQ _ _ _ head) ih

/-- The slots that the branch of a property has, each with the node that is due there: an optional
child has its slot also without an item. -/
def Property.due {α : Type} : Property α → List (Slot × Option α)
  | .optional assigned item => [(.optional, if assigned then item else none)]
  | property => property.children.map fun entry => (entry.1, some entry.2)

/-- What is due in a slot is what the property has there. -/
theorem Property.childAt?_of_due {α : Type} {P : Property α} {slot : Slot} {item : Option α}
    (h : (slot, item) ∈ P.due) : P.childAt? slot = item := by
  cases P with
  | optional assigned item' =>
    cases List.mem_singleton.mp h
    cases assigned <;> rfl
  | _ =>
    obtain ⟨entry, hentry, heq⟩ := List.mem_map.mp h
    cases heq
    exact mem_children.mp hentry

namespace Store

variable {σ : Store} {grammar : Grammar} {document node : Node} {o h c g owner : Handle}
  {hs hs' : List Handle} {path : Path} {n m : Nat} {P : Property Node} {branch : Branch}
  {check : Node → Check} {name held : String}

/-! ## The parts of a passed check -/

/-- The check of what is due in a slot. -/
def checkItem (σ : Store) (check : Node → Check) : Option Node → Check
  | some node => check node
  | none => σ.checkVacant

/-- A state in a slot stands there and passes the check of what is due in it. -/
def Meets (σ : Store) (o : Handle) (name : String) (check : Node → Check)
    (due : Slot × Option Node) (given : Slot × Handle) (n : Nat) : Prop :=
  due.1 = given.1 ∧ σ.place? given.2 = some (.within o name given.1) ∧
    σ.checkItem check due.2 given.2 = .ok n

/-- A branch was made for its owner, has the name and the kind of a property, and in its slots what
is due there. -/
def MeetsBranch (σ : Store) (o : Handle) (check : Node → Check)
    (entry : String × Property Node) (held : String × Inner) (n : Nat) : Prop :=
  held.2.owner = o ∧ entry.1 = held.1 ∧ entry.2.kind = held.2.branch.kind ∧
    Counted (σ.Meets o held.1 check) entry.2.due held.2.branch.slots n

/-- A state that passes the check of its place stands there. -/
theorem place?_of_checkPlace {place : Place} (h : σ.checkPlace place c = .ok ()) :
    σ.place? c = some place := by
  unfold checkPlace at h
  split at h
  · rename_i state hstate
    split at h
    · rename_i hplace
      exact place?_eq_some.mpr ⟨state, hstate, hplace⟩
    · cases h
  · cases h

/-- A state that a branch holds is live if it is found. -/
theorem heldState_eq_ok {state : State} : σ.heldState h = .ok state ↔ σ.get? h = some state := by
  unfold heldState
  cases σ.get? h <;> simp

/-- What the check of a vacant state finds. -/
theorem of_checkVacant (h : σ.checkVacant c = .ok n) : n = 1 ∧ ∃ state, σ.get? c = some state ∧
    state.stage = .vacant ∧ state.inners = [] := by
  obtain ⟨state, hstate, h⟩ := bind_eq_ok.mp h
  split at h
  · rename_i hvacant
    cases h
    exact ⟨rfl, state, heldState_eq_ok.mp hstate, hvacant⟩
  · cases h

/-- What the check of children finds. -/
theorem counted_of_checkChildren {site : BranchRef} {nodes : List (Slot × Node)}
    {slots : List (Slot × Handle)} (hlength : nodes.length = slots.length)
    (h : σ.checkChildren site
      ((nodes.map fun entry => (entry.1, entry.2, check entry.2)).zip slots) = .ok n) :
    Counted (σ.Meets site.owner site.property check)
      (nodes.map fun entry => (entry.1, some entry.2)) slots n := by
  -- By induction on the children of the document: the check goes through both lists in step.
  induction nodes generalizing slots n with
  | nil =>
    obtain rfl := List.length_eq_zero_iff.mp hlength.symm
    cases h
    exact .nil
  | cons entry nodes ih =>
    cases slots with
    | nil => cases hlength
    | cons given slots =>
      rw [List.map_cons, List.zip_cons_cons, checkChildren] at h
      split at h
      · cases h
      · rename_i hslot
        obtain ⟨_, hplace, h⟩ := bind_eq_ok.mp h
        obtain ⟨passed, hcheck, h⟩ := bind_eq_ok.mp h
        obtain ⟨rest, hrest, h⟩ := bind_eq_ok.mp h
        cases h
        obtain hslot : entry.1 = given.1 := not_not.mp hslot
        refine .cons ⟨hslot, ?_, hcheck⟩ (ih (Nat.succ.inj hlength) hrest)
        rw [← hslot]
        exact place?_of_checkPlace hplace

/-- What the check of a branch finds. -/
theorem meetsBranch_of_checkBranch
    (h : σ.checkBranch o name (P.map fun node => (node, check node)) held ⟨owner, branch⟩ =
      .ok n) : σ.MeetsBranch o check (name, P) (held, ⟨owner, branch⟩) n := by
  unfold checkBranch at h
  have hheld : ¬ (name ≠ held ∨ (P.map fun node => (node, check node)).kind ≠ branch.kind ∨
      owner ≠ o) := by
    intro hheld
    rw [if_pos hheld] at h
    cases P <;> cases branch <;> cases h
  rw [if_neg hheld] at h
  rw [Property.kind_map] at hheld
  simp only [not_or, not_not] at hheld
  obtain ⟨hname, hkind, howner⟩ := hheld
  refine ⟨howner, hname, hkind, ?_⟩
  clear howner
  -- In a branch that is not that of an optional child every slot has a node and a state.
  have hchildren {violation : Violation} {rest : PUnit → Except Violation Nat}
      (h : (if (P.map fun node => (node, check node)).children.length ≠ branch.slots.length then
          throw violation >>= rest
        else σ.checkChildren ⟨o, held⟩
          ((P.map fun node => (node, check node)).children.zip branch.slots)) = .ok n) :
      Counted (σ.Meets o held check) (P.children.map fun entry => (entry.1, some entry.2))
        branch.slots n := by
    split at h
    · cases h
    · rename_i hlength
      rw [Property.children_map, List.length_map, not_not] at hlength
      rw [Property.children_map] at h
      exact counted_of_checkChildren hlength h
  cases P with
  | value leaf => cases branch <;> cases hkind
  | child node =>
    cases branch with
    | placeholder child => exact hchildren h
    | _ => cases hkind
  | optional assigned item =>
    cases branch with
    | optional child =>
      obtain ⟨_, hplace, h⟩ := bind_eq_ok.mp h
      refine .cons ⟨rfl, place?_of_checkPlace hplace, ?_⟩ .nil
      cases assigned <;> cases item <;> exact h
    | _ => cases hkind
  | list nodes =>
    cases branch with
    | list children => exact hchildren h
    | _ => cases hkind
  | blockList blocks =>
    cases branch with
    | blockList states =>
      obtain ⟨_, -, h⟩ := bind_eq_ok.mp h
      exact hchildren h
    | _ => cases hkind

/-- What the check of the branches of a state finds. -/
theorem counted_of_checkBranches {found : List (String × Property Node)}
    {inners : List (String × Inner)} (hlength : found.length = inners.length)
    (h : σ.checkBranches o ((found.map fun entry =>
      (entry.1, entry.2.map fun node => (node, check node))).zip inners) = .ok n) :
    Counted (σ.MeetsBranch o check) found inners n := by
  induction found generalizing inners n with
  | nil =>
    obtain rfl := List.length_eq_zero_iff.mp hlength.symm
    cases h
    exact .nil
  | cons entry found ih =>
    cases inners with
    | nil => cases hlength
    | cons held inners =>
      rw [List.map_cons, List.zip_cons_cons, checkBranches] at h
      obtain ⟨passed, hbranch, h⟩ := bind_eq_ok.mp h
      obtain ⟨rest, hrest, h⟩ := bind_eq_ok.mp h
      cases h
      exact .cons (meetsBranch_of_checkBranch hbranch) (ih (Nat.succ.inj hlength) hrest)

/-- Branches that pass were made for their owner. -/
theorem owner_of_counted {found : List (String × Property Node)} {inners : List (String × Inner)}
    (h : Counted (σ.MeetsBranch o check) found inners n) :
    ∀ held ∈ inners, held.2.owner = o := by
  induction h with
  | nil => exact nofun
  | cons head _ ih => exact List.forall_mem_cons.mpr ⟨head.1, ih⟩

/-- What the check of a state finds. -/
theorem of_checkNode (h : σ.checkNode grammar node c = .ok n) : ∃ state found m,
    σ.get? c = some state ∧ state.stage = .ready ∧ grammar.branches node = .ok found ∧
      Counted (σ.MeetsBranch c (σ.checkNode grammar)) found state.inners m ∧ n = 1 + m := by
  obtain ⟨kind, properties⟩ := node
  rw [checkNode, Node.fold_mk, Grammar.browse_map_children] at h
  obtain ⟨state, hstate, h⟩ := bind_eq_ok.mp h
  split at h
  · cases h
  · rename_i hstage
    obtain ⟨browsed, hbrowsed, h⟩ := bind_eq_ok.mp h
    cases hfound : grammar.browse kind properties with
    | error fault =>
      rw [hfound] at hbrowsed
      cases hbrowsed
    | ok found =>
      rw [hfound] at hbrowsed
      cases hbrowsed
      split at h
      · cases h
      · rename_i hlength
        obtain ⟨m, hbranches, h⟩ := bind_eq_ok.mp h
        cases h
        rw [List.length_map, not_not] at hlength
        exact ⟨state, found, m, heldState_eq_ok.mp hstate, not_not.mp hstage, hfound,
          counted_of_checkBranches hlength hbranches, rfl⟩

/-! ## What the check comes to -/

/-- The branch of a state has the name and the kind of a property, and in the slots that are due the
states that stand there. -/
def SuitsBranch (σ : Store) (h : Handle) (entry : String × Property Node)
    (held : String × Branch) : Prop :=
  entry.1 = held.1 ∧ entry.2.kind = held.2.kind ∧
    List.Forall₂ (fun due given => due.1 = given.1 ∧
      σ.place? given.2 = some (.within h held.1 given.1)) entry.2.due held.2.slots

/-- A state suits what the document has at its path: a node, of whose properties it has the branches
in order, made for it, or none. -/
inductive Suits (grammar : Grammar) (σ : Store) (h : Handle) : Option Node → Prop where
  | vacant {state : State} (live : σ.get? h = some state) (stage : state.stage = .vacant)
    (inners : state.inners = []) : Suits grammar σ h none
  | ready {node : Node} {state : State} {found : List (String × Property Node)}
    (live : σ.get? h = some state) (stage : state.stage = .ready)
    (shape : grammar.branches node = .ok found) (owned : state.OwnedBy h)
    (branches : List.Forall₂ (σ.SuitsBranch h) found state.branches) :
    Suits grammar σ h (some node)

/-- The states in the slots of all branches, with their places. -/
def holdings (σ : Store) : List (Place × Handle) :=
  σ.arena.toList.flatMap fun entry => entry.2.branches.flatMap fun held =>
    held.2.slots.map fun given => (.within entry.1 held.1 given.1, given.2)

/-- The check comes to as many states, all below the given ones: each of them is a given one or is
held in a slot, and suits what the document has at its path. -/
def Visits (grammar : Grammar) (document : Node) (σ : Store) (hs : List Handle) (n : Nat) : Prop :=
  ∃ below : List Handle, below.length = n ∧ below.Nodup ∧ ∀ g ∈ below,
    (∃ c ∈ hs, σ.Under c g) ∧ (g ∈ hs ∨ ∃ place, (place, g) ∈ σ.holdings) ∧
      ∃ path, σ.Climbs g path ∧ Suits grammar σ g (grammar.reach document path)

/-- What a slot of a branch of a state has is among the holdings. -/
theorem mem_holdings {place : Place} : (place, c) ∈ σ.holdings ↔ ∃ owner state name branch slot,
    σ.get? owner = some state ∧ (name, branch) ∈ state.branches ∧ (slot, c) ∈ branch.slots ∧
      place = .within owner name slot := by
  unfold holdings
  simp only [List.mem_flatMap, List.mem_map, Prod.exists, Prod.mk.injEq]
  constructor
  · rintro ⟨owner, state, hstate, name, branch, hbranch, slot, _, hslot, rfl, rfl⟩
    exact ⟨owner, state, name, branch, slot, Arena.mem_toList.mp hstate, hbranch, hslot, rfl⟩
  · rintro ⟨owner, state, name, branch, slot, hstate, hbranch, hslot, rfl⟩
    exact ⟨owner, state, Arena.mem_toList.mpr hstate, name, branch, hbranch, slot, c, hslot, rfl,
      rfl⟩

/-- What the check comes to below the first children of a state and what it comes to below the
rest. -/
theorem Visits.append (hclimbs : σ.Climbs o path) (hchildren : ∀ c ∈ hs ++ hs', σ.Child o c)
    (hnodup : (hs ++ hs').Nodup) (hn : Visits grammar document σ hs n)
    (hm : Visits grammar document σ hs' m) : Visits grammar document σ (hs ++ hs') (n + m) := by
  obtain ⟨below, rfl, hbelow, hall⟩ := hn
  obtain ⟨below', rfl, hbelow', hall'⟩ := hm
  refine ⟨below ++ below', List.length_append, hbelow.append hbelow' fun g hg hg' => ?_,
    fun g hg => ?_⟩
  · obtain ⟨c, hc, hunder⟩ := (hall g hg).1
    obtain ⟨c', hc', hunder'⟩ := (hall' g hg').1
    obtain rfl := eq_of_under_children hclimbs (hchildren c (List.mem_append_left hs' hc))
      (hchildren c' (List.mem_append_right hs hc')) hunder hunder'
    exact List.disjoint_of_nodup_append hnodup hc hc'
  · rcases List.mem_append.mp hg with hg | hg
    · obtain ⟨⟨c, hc, hunder⟩, hheld, hsuits⟩ := hall g hg
      exact ⟨⟨c, List.mem_append_left hs' hc, hunder⟩,
        hheld.imp_left (List.mem_append_left hs'), hsuits⟩
    · obtain ⟨⟨c, hc, hunder⟩, hheld, hsuits⟩ := hall' g hg
      exact ⟨⟨c, List.mem_append_right hs hc, hunder⟩,
        hheld.imp_left (List.mem_append_right hs), hsuits⟩

/-- What the check of a state comes to is the state and what it comes to below its children. -/
theorem Visits.cons (hclimbs : σ.Climbs o path)
    (hsuits : Suits grammar σ o (grammar.reach document path))
    (hchildren : ∀ c ∈ hs, σ.Child o c) (hheld : ∀ c ∈ hs, ∃ place, (place, c) ∈ σ.holdings)
    (hn : Visits grammar document σ hs n) : Visits grammar document σ [o] (1 + n) := by
  obtain ⟨below, rfl, hbelow, hall⟩ := hn
  refine ⟨o :: below, by simp [Nat.add_comm], List.nodup_cons.mpr ⟨fun ho => ?_, hbelow⟩, ?_⟩
  · obtain ⟨⟨c, hc, hunder⟩, -⟩ := hall o ho
    obtain ⟨name, slot, hat⟩ := hchildren c hc
    exact not_under_parent (.within hat hclimbs) hat hunder
  · refine List.forall_mem_cons.mpr ⟨⟨⟨o, List.mem_singleton_self o, .refl⟩,
      .inl (List.mem_singleton_self o), path, hclimbs, hsuits⟩, fun g hg => ?_⟩
    obtain ⟨⟨c, hc, hunder⟩, hgiven, hsuits⟩ := hall g hg
    obtain ⟨name, slot, hat⟩ := hchildren c hc
    exact ⟨⟨o, List.mem_singleton_self o, .trans (.within hat .refl) hunder⟩,
      .inr (hgiven.elim (hheld g) id), hsuits⟩

/-- What the check comes to below the children of a state is what it comes to below each of their
parts. -/
theorem Visits.of_counted {α β : Type} {R : α → β → Nat → Prop} {as : List α} {bs : List β}
    (handles : β → List Handle) (h : Counted R as bs n) (hclimbs : σ.Climbs o path)
    (hchildren : ∀ c ∈ bs.flatMap handles, σ.Child o c) (hnodup : (bs.flatMap handles).Nodup)
    (hvisits : ∀ a ∈ as, ∀ b ∈ bs, ∀ m, R a b m → Visits grammar document σ (handles b) m) :
    Visits grammar document σ (bs.flatMap handles) n := by
  induction h with
  | nil => exact ⟨[], rfl, .nil, fun _ hg => by cases hg⟩
  | cons head _ ih =>
    rw [List.flatMap_cons] at hchildren hnodup ⊢
    refine .append hclimbs hchildren hnodup
      (hvisits _ List.mem_cons_self _ List.mem_cons_self _ head)
      (ih (fun c hc => hchildren c (List.mem_append_right _ hc)) hnodup.of_append_right ?_)
    exact fun a ha b hb => hvisits a (List.mem_cons_of_mem _ ha) b (List.mem_cons_of_mem _ hb)

/-- What a suitable state holds stands where the state holds it. -/
theorem place?_of_suits {found : List (String × Property Node)} {branches : List (String × Branch)}
    (h : List.Forall₂ (σ.SuitsBranch c) found branches) :
    ∀ entry ∈ branches, ∀ given ∈ entry.2.slots,
      σ.place? given.2 = some (.within c entry.1 given.1) := by
  induction h with
  | nil => exact fun _ hentry => by cases hentry
  | cons head _ ih =>
    refine List.forall_mem_cons.mpr ⟨fun given hgiven => ?_, ih⟩
    obtain ⟨i, hi⟩ := List.mem_iff_getElem?.mp hgiven
    have hrel := rel_getElem? head.2.2 i
    rw [hi, rel_some_right] at hrel
    obtain ⟨due, -, -, hplace⟩ := hrel
    exact hplace

/-- What a suitable state holds are its children. -/
theorem child_of_suits {found : List (String × Property Node)} {branches : List (String × Branch)}
    (h : List.Forall₂ (σ.SuitsBranch c) found branches) :
    ∀ child ∈ branches.flatMap fun entry => entry.2.children, σ.Child c child := by
  intro child hchild
  obtain ⟨entry, hentry, hchild⟩ := List.mem_flatMap.mp hchild
  obtain ⟨given, hgiven, rfl⟩ := List.mem_map.mp hchild
  exact ⟨entry.1, given.1, place?_of_suits h entry hentry given hgiven⟩

/-- The branches of a suitable state have the names of the properties. -/
theorem keys_of_suits {found : List (String × Property Node)} {branches : List (String × Branch)}
    (h : List.Forall₂ (σ.SuitsBranch c) found branches) :
    Table.keys branches = Table.keys found := by
  induction h with
  | nil => rfl
  | cons head _ ih => exact congrArg₂ List.cons head.1.symm ih

/-- What the branches of a state have in their slots is held. -/
theorem held_of_get? {state : State} (hstate : σ.get? c = some state) :
    ∀ child ∈ state.branches.flatMap fun entry => entry.2.children,
      ∃ place, (place, child) ∈ σ.holdings := by
  intro child hchild
  obtain ⟨⟨name, branch⟩, hentry, hchild⟩ := List.mem_flatMap.mp hchild
  obtain ⟨⟨slot, _⟩, hgiven, rfl⟩ := List.mem_map.mp hchild
  exact ⟨_, mem_holdings.mpr ⟨c, state, name, branch, slot, hstate, hentry, hgiven, rfl⟩⟩

/-- What the check of a vacant state comes to. -/
theorem visits_of_checkVacant (hclimbs : σ.Climbs c path)
    (hreach : grammar.reach document path = none) (h : σ.checkVacant c = .ok n) :
    Visits grammar document σ [c] n := by
  obtain ⟨rfl, state, hstate, hstage, hinners⟩ := of_checkVacant h
  have hsuits : Suits grammar σ c (grammar.reach document path) := by
    rw [hreach]
    exact .vacant hstate hstage hinners
  have hnone : Visits grammar document σ [] 0 := ⟨[], rfl, .nil, fun _ hg => by cases hg⟩
  exact hnone.cons hclimbs hsuits (fun _ hc => by cases hc) (fun _ hc => by cases hc)

/-- What the check of a branch comes to is what the checks of its slots come to. -/
theorem visits_of_meetsBranch {entry : String × Property Node} {held : String × Inner}
    (hclimbs : σ.Climbs c path) (h : σ.MeetsBranch c check entry held n)
    (hchildren : ∀ child ∈ held.2.branch.children, σ.Child c child)
    (hnodup : held.2.branch.children.Nodup)
    (hitems : ∀ slot item child m, (slot, item) ∈ entry.2.due →
      σ.Climbs child (path ++ [⟨entry.1, slot⟩]) → σ.checkItem check item child = .ok m →
        Visits grammar document σ [child] m) :
    Visits grammar document σ held.2.branch.children n := by
  obtain ⟨-, hname, -, hdue⟩ := h
  have hflat : held.2.branch.children = held.2.branch.slots.flatMap fun given => [given.2] :=
    List.map_eq_flatMap
  rw [hflat] at hchildren hnodup ⊢
  refine .of_counted _ hdue hclimbs hchildren hnodup ?_
  rintro ⟨slot, item⟩ hitem ⟨_, child⟩ - m ⟨rfl, hplace, hcheck⟩
  refine hitems slot item child m hitem ?_ hcheck
  rw [hname]
  exact .within hplace hclimbs

/-- What the check of a state comes to. -/
theorem visits_of_checkNode (hgrammar : grammar.DistinctBranches) (hnode : node.WellFormed)
    (hclimbs : σ.Climbs c path) (hreach : grammar.reach document path = some node)
    (h : σ.checkNode grammar node c = .ok n) : Visits grammar document σ [c] n := by
  -- By induction on the node, as the check recurses: each child is visited where it climbs to.
  induction node using Node.induct generalizing c path n with
  | step node ih =>
    obtain ⟨state, found, m, hstate, hstage, hfound, hcounted, rfl⟩ := of_checkNode h
    have hbranches : List.Forall₂ (σ.SuitsBranch c) found state.branches :=
      List.forall₂_map_right_iff.mpr <| hcounted.forall₂ fun entry held m hmeets =>
        ⟨hmeets.2.1, hmeets.2.2.1, hmeets.2.2.2.forall₂ fun due given m hmeet =>
          ⟨hmeet.1, hmeet.2.1⟩⟩
    have hsuits : Suits grammar σ c (grammar.reach document path) := by
      rw [hreach]
      exact .ready hstate hstage hfound (owner_of_counted hcounted) hbranches
    have hheld := held_of_get? hstate
    have hchildren := child_of_suits hbranches
    -- No child is visited twice, since each stands in one slot only.
    have hnodup : (state.branches.flatMap fun entry => entry.2.children).Nodup := by
      refine nodup_of_places ?_ (place?_of_suits hbranches)
      rw [keys_of_suits hbranches]
      exact Grammar.nodup_browse hgrammar hnode.keys hfound
    rw [State.branches, List.flatMap_map] at hheld hchildren hnodup
    refine .cons hclimbs hsuits hchildren hheld
      (.of_counted _ hcounted hclimbs hchildren hnodup fun entry hentry held hheld m hmeets => ?_)
    have hP := (Grammar.mem_branches hnode.keys hfound).mp hentry
    refine visits_of_meetsBranch hclimbs hmeets
      (fun child hchild => hchildren child (List.mem_flatMap.mpr ⟨held, hheld, hchild⟩))
      ((List.nodup_flatMap.mp hnodup).1 held hheld)
      fun slot item child m hitem hclimbs' hcheck => ?_
    have hitem := Property.childAt?_of_due hitem
    have hreach' : grammar.reach document (path ++ [⟨entry.1, slot⟩]) = item := by
      rw [Grammar.reach_append, hreach, Option.bind_some, Grammar.reach_singleton,
        Grammar.stepTo, hP, Option.bind_some, hitem]
    cases item with
    | none => exact visits_of_checkVacant hclimbs' hreach' hcheck
    | some below =>
      have hmem := Table.mem_of_get? (Grammar.property?_of_branch? hnode.keys hP)
      have hbelow := Property.mem_nodes_of_childAt? hitem
      exact ih _ hmem below hbelow (hnode.child hmem hbelow) hclimbs' hreach' hcheck

/-- The states that the check comes to are among those there are, each of them once. -/
theorem Visits.subperm (h : Visits grammar document σ hs n) : ∃ below : List Handle,
    below.length = n ∧ below.Subperm σ.arena.handles ∧ ∀ g ∈ below,
      (∃ c ∈ hs, σ.Under c g) ∧ (g ∈ hs ∨ ∃ place, (place, g) ∈ σ.holdings) ∧
        ∃ path, σ.Climbs g path ∧ Suits grammar σ g (grammar.reach document path) := by
  obtain ⟨below, hlength, hnodup, hall⟩ := h
  refine ⟨below, hlength, List.subperm_of_subset hnodup fun g hg => ?_, hall⟩
  obtain ⟨-, -, path, hclimbs, -⟩ := hall g hg
  exact Arena.mem_handles.mpr hclimbs.live

/-- The check comes to no more states than there are. -/
theorem Visits.le_occupied (h : Visits grammar document σ hs n) : n ≤ σ.arena.occupied := by
  obtain ⟨below, rfl, hsub, -⟩ := h.subperm
  rw [← Arena.length_handles_eq_occupied]
  exact hsub.length_le

/-- A check that comes to as many states as there are comes to all of them. -/
theorem Visits.all (h : Visits grammar document σ hs σ.arena.occupied) (hlive : σ.Live g) :
    (∃ c ∈ hs, σ.Under c g) ∧ (g ∈ hs ∨ ∃ place, (place, g) ∈ σ.holdings) ∧
      ∃ path, σ.Climbs g path ∧ Suits grammar σ g (grammar.reach document path) := by
  obtain ⟨below, hlength, hsub, hall⟩ := h.subperm
  have hperm : below.Perm σ.arena.handles :=
    hsub.perm_of_length_le (by rw [hlength, Arena.length_handles_eq_occupied])
  exact hall g (hperm.mem_iff.mpr (Arena.mem_handles.mpr hlive))

/-- A suitable state has branches of different names and holds everything where it stands. -/
theorem Suits.branches {item : Option Node} {state : State} (h : Suits grammar σ c item)
    (hstate : σ.get? c = some state) (hgrammar : grammar.DistinctBranches)
    (hitem : ∀ node, item = some node → node.WellFormed) : (Table.keys state.branches).Nodup ∧
      ∀ entry ∈ state.branches, ∀ given ∈ entry.2.slots,
        σ.place? given.2 = some (.within c entry.1 given.1) := by
  cases h with
  | vacant live stage inners =>
    cases live.symm.trans hstate
    rw [State.branches, inners]
    exact ⟨.nil, fun _ hentry => by cases hentry⟩
  | ready live stage shape owned branches =>
    cases live.symm.trans hstate
    refine ⟨?_, place?_of_suits branches⟩
    rw [keys_of_suits branches]
    exact Grammar.nodup_browse hgrammar (hitem _ rfl).keys shape

/-- A suitable state is ready when there is a node and vacant else. -/
theorem Suits.stage_eq {item : Option Node} {state : State} (h : Suits grammar σ c item)
    (hstate : σ.get? c = some state) :
    state.stage = if item.isSome then .ready else .vacant := by
  cases h with
  | vacant live stage inners =>
    cases live.symm.trans hstate
    exact stage
  | ready live stage shape owned branches =>
    cases live.symm.trans hstate
    exact stage

/-- The branches of a suitable state were made for it. -/
theorem Suits.ownedBy {item : Option Node} {state : State} (h : Suits grammar σ c item)
    (hstate : σ.get? c = some state) : state.OwnedBy c := by
  cases h with
  | vacant live stage inners =>
    cases live.symm.trans hstate
    rw [State.OwnedBy, inners]
    exact List.forall_mem_nil _
  | ready live stage shape owned branches =>
    cases live.symm.trans hstate
    exact owned

/-- Where every state has branches of different names and holds everything where it stands, nothing
is held twice. -/
theorem nodup_holdings (h : ∀ c state, σ.get? c = some state → (Table.keys state.branches).Nodup ∧
    ∀ entry ∈ state.branches, ∀ given ∈ entry.2.slots,
      σ.place? given.2 = some (.within c entry.1 given.1)) :
    (σ.holdings.map Prod.snd).Nodup := by
  have hmap : σ.holdings.map Prod.snd = σ.arena.toList.flatMap fun entry =>
      entry.2.branches.flatMap fun held => held.2.children := by
    simp only [holdings, List.map_flatMap, List.map_map]
    rfl
  have hhandles : σ.arena.toList.Pairwise fun a b => a.1 ≠ b.1 :=
    List.pairwise_map.mp (Arena.nodup_handles σ.arena)
  rw [hmap]
  refine List.nodup_flatMap.mpr ⟨fun entry hentry => ?_, hhandles.imp_of_mem ?_⟩
  · obtain ⟨hkeys, hplaces⟩ := h entry.1 entry.2 (Arena.mem_toList.mp hentry)
    exact nodup_of_places hkeys hplaces
  · intro a b ha hb hne child hchild hchild'
    -- A child of two states would stand in two places.
    have hat {owner : Handle} {state : State} (howner : (owner, state) ∈ σ.arena.toList)
        (hchild : child ∈ state.branches.flatMap fun held => held.2.children) :
        σ.Child owner child := by
      obtain ⟨held, hheld, hchild⟩ := List.mem_flatMap.mp hchild
      obtain ⟨given, hgiven, rfl⟩ := List.mem_map.mp hchild
      exact ⟨_, _, (h owner state (Arena.mem_toList.mp howner)).2 held hheld given hgiven⟩
    obtain ⟨name, slot, hplace⟩ := hat ha hchild
    obtain ⟨name', slot', hplace'⟩ := hat hb hchild'
    exact hne (Place.within.inj (Option.some.inj (hplace.symm.trans hplace'))).1

/-- A checked register leads to the states that stand in the places. -/
theorem place?_of_checkRegister {place : Place} (h : σ.checkRegister = .ok ())
    (hat : σ.stateAt? place = some c) : σ.place? c = some place := by
  have hentry := forM_eq_ok.mp h (place, c) (Table.mem_of_get? hat)
  dsimp only at hentry
  split at hentry
  · cases hentry
  · rename_i state hstate
    split at hentry
    · rename_i hplace
      exact place?_eq_some.mpr ⟨state, hstate, hplace⟩
    · cases hentry

/-- Checked states are registered where they stand. -/
theorem stateAt?_of_checkStates {place : Place} (h : σ.checkStates = .ok ())
    (hplace : σ.place? c = some place) : σ.stateAt? place = some c := by
  obtain ⟨state, hstate, rfl⟩ := place?_eq_some.mp hplace
  have hentry := forM_eq_ok.mp h (c, state) (Arena.mem_toList.mpr hstate)
  dsimp only at hentry
  split at hentry
  · assumption
  · cases hentry

end Store

namespace Editor

variable {editor : Editor} {h : Handle} {path : Path}

/-- What is due in a slot: a state whose node it is, ready for edits, or a vacant one. -/
def HasDue (editor : Editor) (item : Option Node) (h : Handle) : Prop :=
  editor.node? h = item ∧ ∃ state, editor.store.get? h = some state ∧
    state.stage = if item.isSome then .ready else .vacant

/-- The states are those of the document, each in its place. -/
structure Audited (editor : Editor) : Prop where
  /-- A state is registered for a place exactly when it stands there. -/
  registered : ∀ place h, editor.stateAt? place = some h ↔ editor.store.place? h = some place
  /-- Every state but the root is held in one slot of one branch, that where it stands. -/
  held : ∀ h, editor.store.Live h → h ≠ editor.root → ∃ place,
    editor.store.place? h = some place ∧
      editor.store.holdings.filter (fun entry => entry.2 = h) = [(place, h)]
  /-- The way up from every state leads to the root. -/
  rooted : ∀ h, editor.store.Live h → editor.store.Under editor.root h
  /-- Every state has a path, and is ready when the document has a node there and vacant else. -/
  staged : ∀ h state, editor.store.get? h = some state → ∃ path, editor.pathOf h = .ok path ∧
    state.stage = if (editor.nodeAt path).toOption.isSome then .ready else .vacant
  /-- A ready state has a branch for each property with children of its node, in order, and each
  branch has in its slots the states that are due there. -/
  listed : ∀ h state, editor.store.get? h = some state → state.stage = .ready → ∃ node found,
    editor.node? h = some node ∧ editor.grammar.branches node = .ok found ∧
      List.Forall₂ (fun entry held => entry.1 = held.1 ∧ entry.2.kind = held.2.kind ∧
        List.Forall₂ (fun due given => due.1 = given.1 ∧ editor.HasDue due.2 given.2)
          entry.2.due held.2.slots) found state.branches
  /-- Every branch was made for the state that keeps it. -/
  owned : editor.store.Owned

/-- The node of a state is what the document has at its path. -/
theorem node?_of_pathOf (hpath : editor.pathOf h = .ok path) :
    editor.node? h = (editor.nodeAt path).toOption := by
  rw [node?, nodeOf, hpath, ok_bind]
  cases editor.nodeAt path <;> rfl

/-- Through the free grammar a path leads to what the document has there. -/
theorem toOption_nodeAt (hdocument : editor.document.WellFormed) :
    (editor.nodeAt path).toOption = Grammar.free.reach editor.document path := by
  apply Option.ext
  intro node
  rw [toOption_eq_some, Grammar.reach_free hdocument, nodeAt]

/-- The states of an editor suit its document and are all below the root. -/
structure Suited (editor : Editor) : Prop where
  /-- A state is registered for a place exactly when it stands there. -/
  registered : ∀ place h, editor.stateAt? place = some h ↔ editor.store.place? h = some place
  /-- The way up from every state leads to the root. -/
  rooted : ∀ h, editor.store.Live h → editor.store.Under editor.root h
  /-- Every state but the root is held in a slot. -/
  held : ∀ h, editor.store.Live h → h ≠ editor.root → ∃ place, (place, h) ∈ editor.store.holdings
  /-- Every state suits what the document has at its path. -/
  suits : ∀ h, editor.store.Live h → ∃ path, editor.store.Climbs h path ∧
    editor.store.Suits editor.grammar h (editor.grammar.reach editor.document path)

/-- What the audit counts are states that there are. -/
theorem visits_of_checkNode (hgrammar : editor.grammar.DistinctBranches)
    (hdocument : editor.document.WellFormed)
    (hroot : editor.store.place? editor.root = some .root) {passed : Nat}
    (h : editor.store.checkNode editor.grammar editor.document editor.root = .ok passed) :
    editor.store.Visits editor.grammar editor.document [editor.root] passed :=
  Store.visits_of_checkNode hgrammar hdocument (.root hroot) rfl h

/-- States that pass the audit suit the document. -/
theorem suited_of_verify (hgrammar : editor.grammar.DistinctBranches)
    (hdocument : editor.document.WellFormed)
    (hroot : editor.store.place? editor.root = some .root)
    (hsize : editor.stateCount = editor.store.arena.occupied) (h : editor.verify = .ok ()) :
    editor.Suited := by
  obtain ⟨_, hregister, h⟩ := bind_eq_ok.mp h
  obtain ⟨_, hstates, h⟩ := bind_eq_ok.mp h
  obtain ⟨passed, hpassed, h⟩ := bind_eq_ok.mp h
  split at h
  · cases h
  rename_i hcount
  obtain rfl := not_not.mp hcount
  have hvisits := visits_of_checkNode hgrammar hdocument hroot hpassed
  rw [hsize] at hvisits
  exact {
    registered := fun place h => ⟨Store.place?_of_checkRegister hregister,
      Store.stateAt?_of_checkStates hstates⟩
    rooted := fun h hlive => by
      obtain ⟨⟨c, hc, hunder⟩, -⟩ := hvisits.all hlive
      exact List.mem_singleton.mp hc ▸ hunder
    held := fun h hlive hne => by
      obtain ⟨-, hheld, -⟩ := hvisits.all hlive
      exact hheld.resolve_left fun hmem => hne (List.mem_singleton.mp hmem)
    suits := fun h hlive => (hvisits.all hlive).2.2 }

/-- Suited states hold each state but the root once, where it stands. -/
theorem Suited.held_once (h : editor.Suited) (hgrammar : editor.grammar.DistinctBranches)
    (hdocument : editor.document.WellFormed) {c : Handle} (hlive : editor.store.Live c)
    (hne : c ≠ editor.root) : ∃ place, editor.store.place? c = some place ∧
      editor.store.holdings.filter (fun entry => entry.2 = c) = [(place, c)] := by
  have hplaces : ∀ owner state, editor.store.get? owner = some state →
      (Table.keys state.branches).Nodup ∧ ∀ entry ∈ state.branches, ∀ given ∈ entry.2.slots,
        editor.store.place? given.2 = some (.within owner entry.1 given.1) := by
    intro owner state hstate
    obtain ⟨path, -, hsuits⟩ := h.suits owner ⟨state, hstate⟩
    exact hsuits.branches hstate hgrammar fun node => Grammar.wellFormed_reach hdocument
  have hstands : ∀ place, (place, c) ∈ editor.store.holdings →
      editor.store.place? c = some place := by
    intro place hmem
    obtain ⟨owner, state, name, branch, slot, hstate, hbranch, hslot, rfl⟩ :=
      Store.mem_holdings.mp hmem
    exact (hplaces owner state hstate).2 _ hbranch _ hslot
  -- The holdings that name the state are one, as nothing is held twice and it stands in one place.
  have hnodup := List.Nodup.of_map _ (Store.nodup_holdings hplaces)
  obtain ⟨place, hmem⟩ := h.held c hlive hne
  refine ⟨place, hstands place hmem, List.perm_singleton.mp ?_⟩
  refine (List.perm_ext_iff_of_nodup (hnodup.filter _) (List.nodup_singleton _)).mpr ?_
  rintro ⟨place', c'⟩
  simp only [List.mem_filter, decide_eq_true_eq, List.mem_singleton, Prod.mk.injEq]
  constructor
  · rintro ⟨hmem', rfl⟩
    exact ⟨Option.some.inj ((hstands place' hmem').symm.trans (hstands place hmem)), rfl⟩
  · rintro ⟨rfl, rfl⟩
    exact ⟨hmem, rfl⟩

/-- Suited states have in the slots of their branches what is due there. -/
theorem Suited.hasDue (h : editor.Suited) (hfree : editor.grammar = .free)
    (hdocument : editor.document.WellFormed) {c o : Handle} {name : String} {slot : Slot}
    {node : Node} {P : Property Node}
    (hclimbs : editor.store.Climbs o path)
    (hreach : editor.grammar.reach editor.document path = some node)
    (hbranch : editor.grammar.branch? node name = some P)
    (hplace : editor.store.place? c = some (.within o name slot)) :
    editor.HasDue (P.childAt? slot) c := by
  obtain ⟨state, hstate⟩ := Store.live_of_place? hplace
  obtain ⟨path', hclimbs', hsuits⟩ := h.suits c ⟨state, hstate⟩
  obtain rfl := hclimbs'.unique (.within hplace hclimbs)
  have hitem : editor.grammar.reach editor.document (path ++ [⟨name, slot⟩]) = P.childAt? slot := by
    rw [Grammar.reach_append, hreach, Option.bind_some, Grammar.reach_singleton, Grammar.stepTo,
      hbranch, Option.bind_some]
  rw [← hitem]
  refine ⟨?_, state, hstate, hsuits.stage_eq hstate⟩
  rw [node?_of_pathOf (pathOf_eq_ok.mpr hclimbs'), toOption_nodeAt hdocument, hfree]

/-- Whatever states and document an editor under the free grammar holds, if its root stands at the
root and its arena has counted its states right: the audit counts no more states than there are, and
if it passes the states are those of the document. -/
theorem audited_of_verify (hfree : editor.grammar = .free) (hdocument : editor.document.WellFormed)
    (hroot : editor.store.place? editor.root = some .root)
    (hsize : editor.stateCount = editor.store.arena.occupied) :
    (∀ passed, editor.store.checkNode editor.grammar editor.document editor.root = .ok passed →
      passed ≤ editor.stateCount) ∧
      (editor.verify = .ok () → editor.Audited) := by
  have hgrammar : editor.grammar.DistinctBranches := by
    rw [hfree]
    trivial
  refine ⟨fun passed hpassed => hsize ▸
    (visits_of_checkNode hgrammar hdocument hroot hpassed).le_occupied, fun hverify => ?_⟩
  have hsuited := suited_of_verify hgrammar hdocument hroot hsize hverify
  exact {
    registered := hsuited.registered
    held := fun h hlive hne => hsuited.held_once hgrammar hdocument hlive hne
    rooted := hsuited.rooted
    staged := fun h state hstate => by
      obtain ⟨path, hclimbs, hsuits⟩ := hsuited.suits h ⟨state, hstate⟩
      refine ⟨path, pathOf_eq_ok.mpr hclimbs, ?_⟩
      rw [toOption_nodeAt hdocument, ← hfree]
      exact hsuits.stage_eq hstate
    listed := fun h state hstate hready => by
      obtain ⟨path, hclimbs, hsuits⟩ := hsuited.suits h ⟨state, hstate⟩
      generalize hreach : editor.grammar.reach editor.document path = item at hsuits
      cases hsuits with
      | vacant live stage =>
        cases live.symm.trans hstate
        cases stage.symm.trans hready
      | @ready node _ found live _ shape _ branches =>
        cases live.symm.trans hstate
        have hnode : editor.node? h = some node := by
          rw [node?_of_pathOf (pathOf_eq_ok.mpr hclimbs), toOption_nodeAt hdocument, ← hfree,
            hreach]
        have hkeys := (Grammar.wellFormed_reach hdocument hreach).keys
        refine ⟨node, found, hnode, shape, (forall₂_attach branches).imp ?_⟩
        rintro ⟨name, P⟩ ⟨_, branch⟩ ⟨hentry, -, rfl, hkind, hdue⟩
        refine ⟨rfl, hkind, (forall₂_attach hdue).imp ?_⟩
        rintro ⟨slot, item⟩ ⟨_, c⟩ ⟨hitem, -, rfl, hplace⟩
        rw [← Property.childAt?_of_due hitem]
        exact ⟨rfl, hsuited.hasDue hfree hdocument hclimbs hreach
          ((Grammar.mem_branches hkeys shape).mp hentry) hplace⟩
    owned := fun h state hstate => by
      obtain ⟨path, -, hsuits⟩ := hsuited.suits h ⟨state, hstate⟩
      exact hsuits.ownedBy hstate }

/-- A new editor passes the audit, so its states are those of the document. -/
theorem audited_sample : ∃ editor, ofDocument .sample .free .standard = .ok editor ∧
    editor.verify = .ok () ∧ editor.Audited ∧
      (editor.pathOf ⟨2, 0⟩).toOption = some [⟨"items", .list 0⟩] := by
  obtain ⟨start, hstart, htest⟩ := exists_start (d := .sample) (g := .free) (s := .standard)
    (p := fun start => start.verify.toOption.isSome &&
      start.store.place? start.root = some .root &&
      start.stateCount = start.store.arena.occupied &&
      (start.pathOf ⟨2, 0⟩).toOption = some [⟨"items", .list 0⟩]) (by cbv)
  obtain ⟨_, -, hmade⟩ := bind_eq_ok.mp hstart
  obtain ⟨⟨root, store⟩, -, hmade⟩ := bind_eq_ok.mp hmade
  cases hmade
  simp only [Bool.and_eq_true, decide_eq_true_eq] at htest
  obtain ⟨⟨⟨hverify, hroot⟩, hsize⟩, hpath⟩ := htest
  obtain ⟨_, hverify⟩ := Option.isSome_iff_exists.mp hverify
  have hverify := toOption_eq_some.mp hverify
  exact ⟨_, hstart, hverify, (audited_of_verify rfl Node.wellFormed_sample hroot hsize).2 hverify,
    hpath⟩

end Editor

end TreeEditor
