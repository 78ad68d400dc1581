import TreeEditor.Proofs.Descent

/-!
# The order of properties

Documents are compared without regard to the order in which a node names its properties. Here is
what this means. `Node.Reorders` puts the properties of one node of a document in another order,
wherever it stands: patterns, sources and retained items are nodes too. Two documents are the same
exactly when one becomes the other in this way, one node after the other
(`Node.same_iff_reorders`); so the order of properties is all that the comparison overlooks.

What is overlooked does no harm. Documents that are the same are valid alike under every grammar,
and every path leads to nodes that are the same in both or is refused in both for the same reason
(`Node.Interchangeable`).
-/

namespace TreeEditor

/-! ## One node replaced -/

section Replaced

variable {α : Type} {a b : α}

/-- One occurrence of an item in a list is replaced. -/
inductive ItemReplaced (a b : α) : List α → List α → Prop where
  | head (rest : List α) : ItemReplaced a b (a :: rest) (b :: rest)
  | tail (first : α) {as bs : List α} (rest : ItemReplaced a b as bs) :
    ItemReplaced a b (first :: as) (first :: bs)

/-- One occurrence of a node in a block is replaced. -/
inductive Block.NodeReplaced (a b : α) : Block α α → Block α α → Prop where
  | pattern (replication : Replication) (source : α) (members : List α) :
    NodeReplaced a b ⟨⟨replication, a, source⟩, members⟩ ⟨⟨replication, b, source⟩, members⟩
  | source (replication : Replication) (pattern : α) (members : List α) :
    NodeReplaced a b ⟨⟨replication, pattern, a⟩, members⟩ ⟨⟨replication, pattern, b⟩, members⟩
  | member (header : Header α) {as bs : List α} (members : ItemReplaced a b as bs) :
    NodeReplaced a b ⟨header, as⟩ ⟨header, bs⟩

/-- One occurrence of a node under a property is replaced. -/
inductive Property.NodeReplaced (a b : α) : Property α → Property α → Prop where
  | child : NodeReplaced a b (.child a) (.child b)
  | item (assigned : Bool) :
    NodeReplaced a b (.optional assigned (some a)) (.optional assigned (some b))
  | list {as bs : List α} (nodes : ItemReplaced a b as bs) : NodeReplaced a b (.list as) (.list bs)
  | block {x y : Block α α} (content : x.NodeReplaced a b y) {as bs : List (Block α α)}
    (blocks : ItemReplaced x y as bs) : NodeReplaced a b (.blockList as) (.blockList bs)

/-- The replaced item is one of the list, and the others remain. -/
theorem ItemReplaced.mem {as bs : List α} (h : ItemReplaced a b as bs) :
    a ∈ as ∧ ∀ x ∈ bs, x = b ∨ x ∈ as := by
  induction h with
  | head rest => simp +contextual
  | tail first _ ih =>
    refine ⟨List.mem_cons_of_mem _ ih.1, fun x hx => ?_⟩
    rcases List.mem_cons.mp hx with rfl | hrest
    · exact .inr List.mem_cons_self
    · exact (ih.2 x hrest).imp_right (List.mem_cons_of_mem _)

/-- A list and the list with one item replaced are related item by item. -/
theorem ItemReplaced.forall₂ {R : α → α → Prop} {as bs : List α} (h : ItemReplaced a b as bs)
    (hab : R a b) (hrefl : ∀ x ∈ as, R x x) : List.Forall₂ R as bs := by
  induction h with
  | head rest =>
    exact .cons hab (List.forall₂_same.mpr fun x hx => hrefl x (List.mem_cons_of_mem _ hx))
  | tail first _ ih =>
    exact .cons (hrefl first List.mem_cons_self)
      (ih fun x hx => hrefl x (List.mem_cons_of_mem _ hx))

/-- The replaced node is one of the block, and the others remain. -/
theorem Block.NodeReplaced.mem {x y : Block α α} (h : x.NodeReplaced a b y) :
    a ∈ x.header.pattern :: x.header.source :: x.members ∧
      ∀ node ∈ y.header.pattern :: y.header.source :: y.members,
        node = b ∨ node ∈ x.header.pattern :: x.header.source :: x.members := by
  cases h with
  | pattern | source => simp +contextual [or_imp]
  | member header members =>
    obtain ⟨ha, hrest⟩ := members.mem
    refine ⟨List.mem_cons_of_mem _ (List.mem_cons_of_mem _ ha), fun node hnode => ?_⟩
    rcases List.mem_cons.mp hnode with rfl | hnode
    · exact .inr List.mem_cons_self
    · rcases List.mem_cons.mp hnode with rfl | hmember
      · exact .inr (List.mem_cons_of_mem _ List.mem_cons_self)
      · exact (hrest node hmember).imp_right fun h =>
          List.mem_cons_of_mem _ (List.mem_cons_of_mem _ h)

/-- The replaced node is one of those under the property, and the others remain. -/
theorem Property.NodeReplaced.mem {P Q : Property α} (h : P.NodeReplaced a b Q) :
    a ∈ P.nodes ∧ ∀ node ∈ Q.nodes, node = b ∨ node ∈ P.nodes := by
  cases h with
  | child => simp [nodes]
  | item assigned => simp [nodes]
  | list h => exact h.mem
  | block content blocks =>
    obtain ⟨ha, hnodes⟩ := content.mem
    obtain ⟨hx, hblocks⟩ := blocks.mem
    refine ⟨List.mem_flatMap.mpr ⟨_, hx, ha⟩, fun node hnode => ?_⟩
    obtain ⟨block, hblock, hin⟩ := List.mem_flatMap.mp hnode
    rcases hblocks block hblock with rfl | hold
    · exact (hnodes node hin).imp_right fun h => List.mem_flatMap.mpr ⟨_, hx, h⟩
    · exact .inr (List.mem_flatMap.mpr ⟨block, hold, hin⟩)

/-- A property and the property with one node replaced hold related nodes. -/
theorem Property.NodeReplaced.corresponds {R : α → α → Prop} {P Q : Property α}
    (h : P.NodeReplaced a b Q) (hab : R a b) (hrefl : ∀ x ∈ P.nodes, R x x) :
    P.Corresponds R Q := by
  cases h with
  | child => exact .child hab
  | item assigned => exact .optional assigned (.some hab)
  | list h => exact .list (h.forall₂ hab hrefl)
  | @block x y content as bs blocks =>
    -- The other blocks and the rest of the block are as they were, which is where reflexivity is
    -- used.
    have hsame : ∀ block ∈ as, ∀ node ∈ block.header.pattern :: block.header.source ::
        block.members, R node node := fun block hblock node hnode =>
      hrefl node (List.mem_flatMap.mpr ⟨block, hblock, hnode⟩)
    have hx := hsame x blocks.mem.1
    refine .blockList (blocks.forall₂ ?_ fun block hblock => ?_)
    · cases content with
      | pattern replication source members =>
        exact ⟨⟨rfl, hab, hx _ (by simp)⟩, List.forall₂_same.mpr fun _ h => hx _ (by simp [h])⟩
      | source replication pattern members =>
        exact ⟨⟨rfl, hx _ (by simp), hab⟩, List.forall₂_same.mpr fun _ h => hx _ (by simp [h])⟩
      | member header members =>
        exact ⟨⟨rfl, hx _ (by simp), hx _ (by simp)⟩,
          members.forall₂ hab fun _ h => hx _ (by simp [h])⟩
    · have hblock' := hsame block hblock
      exact ⟨⟨rfl, hblock' _ (by simp), hblock' _ (by simp)⟩,
        List.forall₂_same.mpr fun _ h => hblock' _ (by simp [h])⟩

end Replaced

/-! ## One node after the other -/

section Steps

open Relation (ReflTransGen)

variable {α : Type} {R : α → α → Prop}

/-- Lists whose items lead to each other in steps lead to each other in steps that replace one item
each. -/
theorem steps_list {as bs : List α} (h : List.Forall₂ (ReflTransGen R) as bs) :
    ReflTransGen (fun as bs => ∃ a b, R a b ∧ ItemReplaced a b as bs) as bs := by
  induction h with
  | nil => exact .refl
  | @cons a b as bs item _ ih =>
    -- The first item takes all its steps before the others take theirs.
    have hfirst : ReflTransGen (fun as bs => ∃ a b, R a b ∧ ItemReplaced a b as bs) (a :: as)
        (b :: as) := item.lift (· :: as) fun x y hxy => ⟨x, y, hxy, .head as⟩
    refine hfirst.trans (ih.lift (b :: ·) ?_)
    rintro _ _ ⟨x, y, hxy, hrest⟩
    exact ⟨x, y, hxy, .tail b hrest⟩

/-- Blocks whose nodes lead to each other in steps lead to each other in steps that replace one node
each. -/
theorem steps_block {x y : Block α α}
    (h : x.Corresponds (Header.Corresponds (ReflTransGen R)) (ReflTransGen R) y) :
    ReflTransGen (fun x y => ∃ a b, R a b ∧ x.NodeReplaced a b y) x y := by
  obtain ⟨⟨replication, pattern, source⟩, members⟩ := x
  obtain ⟨⟨replication', pattern', source'⟩, members'⟩ := y
  obtain ⟨⟨hreplication, hpattern, hsource⟩, hmembers⟩ := h
  dsimp only at hreplication hpattern hsource hmembers
  subst hreplication
  have hfirst := hpattern.lift (p := fun x y => ∃ a b, R a b ∧ Block.NodeReplaced a b x y)
    (fun pattern => ⟨⟨replication, pattern, source⟩, members⟩)
    fun x y hxy => ⟨x, y, hxy, .pattern replication source members⟩
  have hsecond := hsource.lift (p := fun x y => ∃ a b, R a b ∧ Block.NodeReplaced a b x y)
    (fun source => ⟨⟨replication, pattern', source⟩, members⟩)
    fun x y hxy => ⟨x, y, hxy, .source replication pattern' members⟩
  have hthird := (steps_list hmembers).lift
    (p := fun x y => ∃ a b, R a b ∧ Block.NodeReplaced a b x y)
    (fun members => ⟨⟨replication, pattern', source'⟩, members⟩) <| by
      rintro _ _ ⟨x, y, hxy, hitem⟩
      exact ⟨x, y, hxy, .member _ hitem⟩
  exact (hfirst.trans hsecond).trans hthird

/-- Properties whose nodes lead to each other in steps lead to each other in steps that replace one
node each. -/
theorem steps_property {P Q : Property α} (h : P.Corresponds (ReflTransGen R) Q) :
    ReflTransGen (fun P Q => ∃ a b, R a b ∧ P.NodeReplaced a b Q) P Q := by
  cases h with
  | value leaf => exact .refl
  | child node => exact node.lift Property.child fun a b hab => ⟨a, b, hab, .child⟩
  | optional assigned item =>
    cases item with
    | none => exact .refl
    | some node =>
      exact node.lift (fun node => Property.optional assigned (some node))
        fun a b hab => ⟨a, b, hab, .item assigned⟩
  | list nodes =>
    refine (steps_list nodes).lift Property.list ?_
    rintro _ _ ⟨a, b, hab, hitem⟩
    exact ⟨a, b, hab, .list hitem⟩
  | blockList blocks =>
    refine (steps_list (blocks.imp fun _ _ => steps_block)).lift Property.blockList ?_
    rintro _ _ ⟨x, y, ⟨a, b, hab, hcontent⟩, hblocks⟩
    exact ⟨a, b, hab, .block hcontent hblocks⟩

end Steps

/-! ## Documents -/

namespace Node

open Relation (ReflTransGen)

/-- The properties of one node of a document are put in another order: those of the root, or those
of a node under one of its properties. -/
inductive Reorders : Node → Node → Prop where
  | here {node : Node} {properties : List (String × Property Node)}
    (order : node.properties.Perm properties) : Reorders node (.mk node.kind properties)
  | inside {node child new : Node} {name : String} {P Q : Property Node}
    (property : node.property? name = some P) (reorders : Reorders child new)
    (replaced : P.NodeReplaced child new Q) : Reorders node (node.set name Q)

variable {a b c : Node}

/-- Putting properties in another order keeps a document well-formed. -/
theorem Reorders.wellFormed (h : a.Reorders b) (ha : a.WellFormed) : b.WellFormed := by
  induction h with
  | @here node properties order =>
    refine .intro ?_ fun entry hentry => ?_
    · exact (order.map Prod.fst).nodup_iff.mp ha.keys
    · exact fun child hchild => ha.child (order.mem_iff.mpr hentry) hchild
  | inside property _ replaced ih =>
    obtain ⟨hmem, hothers⟩ := replaced.mem
    refine ha.set fun node hnode => ?_
    rcases hothers node hnode with rfl | hold
    · exact ih (ha.property property hmem)
    · exact ha.property property hold

/-- Putting properties in another order gives the same document. -/
theorem Reorders.same (h : a.Reorders b) (ha : a.WellFormed) : a.Same b := by
  induction h with
  | @here node properties order =>
    have hkeys : (Table.keys (mk node.kind properties).properties).Nodup :=
      (order.map Prod.fst).nodup_iff.mp ha.keys
    refine (same_iff ha.keys hkeys).mpr ⟨rfl, fun name => ?_⟩
    have hget : (mk node.kind properties).property? name = node.property? name :=
      (Table.get?_perm order ha.keys name).symm
    rw [hget]
    exact ((same_iff ha.keys ha.keys).mp (same_refl ha)).2 name
  | @inside node child new name P Q property _ replaced ih =>
    -- The node is itself with `P` set, and `Q` takes the place of `P`.
    have hnodes : ∀ x ∈ P.nodes, x.Same x := fun x hx => same_refl (ha.property property hx)
    have hchild := ih (ha.property property replaced.mem.1)
    have hset := Same.set ha ha (same_refl ha) (replaced.corresponds hchild hnodes) name
    rwa [set_property? property] at hset

/-- Putting the properties of one node after the other in another order gives the same document. -/
theorem same_of_reorders (ha : a.WellFormed) (h : ReflTransGen Reorders a b) :
    b.WellFormed ∧ a.Same b := by
  induction h with
  | refl => exact ⟨ha, same_refl ha⟩
  | tail _ hstep ih =>
    obtain ⟨hwell, hsame⟩ := ih
    have hnext := hstep.wellFormed hwell
    exact ⟨hnext, same_trans ha hwell hnext hsame (hstep.same hwell)⟩

/-- A property is changed into another one by putting the properties of nodes under it in another
order. -/
theorem reorders_set (node : Node) (name : String) {P Q : Property Node}
    (h : P.Corresponds (ReflTransGen Reorders) Q) :
    ReflTransGen Reorders (node.set name P) (node.set name Q) := by
  refine (steps_property h).lift (node.set name) ?_
  rintro P Q ⟨child, new, hreorders, hreplaced⟩
  have hthere : (node.set name P).property? name = some P := by
    rw [property?_set, if_pos rfl]
  have hstep := Reorders.inside hthere hreorders hreplaced
  rwa [set_set] at hstep

/-- Properties of the same names in the same order are changed into each other one after the
other. -/
theorem reorders_entries (kind : String) {before after : List (String × Property Node)}
    (h : List.Forall₂ (fun e f => e.1 = f.1 ∧ e.2.Corresponds (ReflTransGen Reorders) f.2)
      before after) (done : List (String × Property Node))
    (hkeys : (Table.keys (done ++ before)).Nodup) :
    ReflTransGen Reorders (.mk kind (done ++ before)) (.mk kind (done ++ after)) := by
  induction h generalizing done with
  | nil => exact .refl
  | @cons e f before after hfirst _ ih =>
    obtain ⟨name, P⟩ := e
    obtain ⟨_, Q⟩ := f
    obtain ⟨rfl, hPQ⟩ := hfirst
    have hnew : name ∉ Table.keys done := fun hmem => by
      rw [Table.keys, List.map_append, List.map_cons] at hkeys
      exact (List.nodup_append.mp hkeys).2.2 _ hmem _ List.mem_cons_self rfl
    -- What was done before stands under other names and stays as it is.
    have hset : ∀ R, (mk kind (done ++ (name, P) :: before)).set name R =
        mk kind (done ++ (name, R) :: before) := fun R => by
      rw [set, kind_mk, properties_mk, Table.set_append hnew, Table.set, if_pos rfl]
    have hstep := reorders_set (mk kind (done ++ (name, P) :: before)) name hPQ
    rw [hset, hset] at hstep
    have hkeys' : (Table.keys ((done ++ [(name, Q)]) ++ before)).Nodup := by
      simpa [Table.keys] using hkeys
    have hrest := ih (done ++ [(name, Q)]) hkeys'
    rw [← List.append_cons, ← List.append_cons] at hrest
    exact hstep.trans hrest

/-- A document becomes every document that is the same by putting the properties of one node after
the other in another order. -/
theorem reorders_of_same (ha : a.WellFormed) (hb : b.WellFormed) (h : a.Same b) :
    ReflTransGen Reorders a b := by
  induction a using Node.induct generalizing b with
  | step a ih =>
    obtain ⟨hkind, hrel⟩ := (same_iff ha.keys hb.keys).mp h
    -- First the properties of `a` take the order that they have in `b`.
    obtain ⟨ordered, horder, hkeys⟩ := Table.exists_ordered (perm_keys ha.keys hb.keys hrel)
    -- Then one property after the other becomes what it is in `b`.
    have hentries : List.Forall₂
        (fun e f => e.1 = f.1 ∧ e.2.Corresponds (ReflTransGen Reorders) f.2)
        ordered b.properties := by
      refine (forall₂_attach hkeys).imp ?_
      rintro ⟨name, P⟩ ⟨_, Q⟩ ⟨hP, hQ, rfl⟩
      have hinA : (name, P) ∈ a.properties := horder.mem_iff.mpr hP
      have hPa : a.property? name = some P := (Table.mem_iff_get? ha.keys).mp hinA
      have hQb : b.property? name = some Q := (Table.mem_iff_get? hb.keys).mp hQ
      have hname := hrel name
      rw [hPa, hQb] at hname
      cases hname with
      | some hPQ =>
        refine ⟨rfl, hPQ.attach.mono ?_⟩
        rintro x y ⟨hx, hy, hxy⟩
        exact ih _ hinA x hx (ha.property hPa hx) (hb.property hQb hy) hxy
    have hnodup : (Table.keys ([] ++ ordered)).Nodup := (horder.map Prod.fst).nodup_iff.mp ha.keys
    have hrest := reorders_entries a.kind hentries [] hnodup
    rw [List.nil_append, List.nil_append, hkind, mk_kind_properties, ← hkind] at hrest
    exact .head (.here horder) hrest

/-- Two documents are the same exactly when one becomes the other by putting the properties of one
node after the other in another order. -/
theorem same_iff_reorders (ha : a.WellFormed) (hb : b.WellFormed) :
    a.Same b ↔ ReflTransGen Reorders a b :=
  ⟨reorders_of_same ha hb, fun h => (same_of_reorders ha h).2⟩

end Node

/-! ## What does not depend on the order -/

/-- Two results are related values, or they fail for the same reason. -/
inductive Concurs {ε α β : Type} (R : α → β → Prop) : Except ε α → Except ε β → Prop where
  | ok {a : α} {b : β} (value : R a b) : Concurs R (.ok a) (.ok b)
  | error (reason : ε) : Concurs R (.error reason) (.error reason)

/-- Sequences of steps concur when the steps do. -/
theorem Concurs.bind {ε α β γ δ : Type} {R : α → β → Prop} {S : γ → δ → Prop} {x : Except ε α}
    {y : Except ε β} (h : Concurs R x y) {f : α → Except ε γ} {g : β → Except ε δ}
    (hnext : ∀ a b, R a b → Concurs S (f a) (g b)) : Concurs S (x >>= f) (y >>= g) := by
  cases h with
  | ok value => exact hnext _ _ value
  | error reason => exact .error reason

namespace Node

variable {a b : Node}

/-- A step leads to the same child of documents that are the same, or is refused for the same
reason. -/
theorem step_same (ha : a.WellFormed) (hb : b.WellFormed) (h : a.Same b) (step : Step) :
    Concurs (fun x y => x.WellFormed ∧ y.WellFormed ∧ x.Same y) (a.step step) (b.step step) := by
  obtain ⟨hkind, hrel⟩ := (same_iff ha.keys hb.keys).mp h
  -- The step looks the property up by its name, so the order of the properties does not count.
  have hname := hrel step.property
  rw [step_eq, step_eq, ← hkind]
  cases hP : a.property? step.property with
  | none =>
    rw [hP, rel_none_left] at hname
    rw [hname]
    exact .error _
  | some P =>
    rw [hP, rel_some_left] at hname
    obtain ⟨Q, hQ, hPQ⟩ := hname
    rw [hQ]
    dsimp only
    rw [← hPQ.kind_eq]
    split
    · have hslot := hPQ.attach.childAt? step.slot
      cases hx : P.childAt? step.slot with
      | none =>
        rw [hx, rel_none_left] at hslot
        rw [hslot]
        exact .error _
      | some x =>
        rw [hx, rel_some_left] at hslot
        obtain ⟨y, hy, hinP, hinQ, hxy⟩ := hslot
        rw [hy]
        exact .ok ⟨ha.property hP hinP, hb.property hQ hinQ, hxy⟩
    · exact .error _

/-- A path leads to the same node of documents that are the same, or is refused for the same
reason. -/
theorem descend_same (ha : a.WellFormed) (hb : b.WellFormed) (h : a.Same b) (path : Path) :
    Concurs Same (a.descend path) (b.descend path) := by
  induction path generalizing a b with
  | nil => exact .ok h
  | cons step rest ih =>
    refine (step_same ha hb h step).bind fun x y hxy => ?_
    obtain ⟨hx, hy, hsame⟩ := hxy
    exact ih hx hy hsame

/-- Two documents are valid under the same grammars, and every path leads to the same node of both
or is refused in both for the same reason. -/
structure Interchangeable (a b : Node) : Prop where
  valid : ∀ grammar : Grammar, grammar.validate a = .ok () ↔ grammar.validate b = .ok ()
  found : ∀ path, Concurs (fun x y => x.same y = true) (a.descend path) (b.descend path)

/-- Documents that are the same are interchangeable. -/
theorem interchangeable_of_same (ha : a.WellFormed) (hb : b.WellFormed) (h : a.Same b) :
    a.Interchangeable b where
  valid _ := ⟨Grammar.valid_same hb ha (same_symm ha hb h), Grammar.valid_same ha hb h⟩
  found := descend_same ha hb h

/-- Sameness is an equivalence of documents that overlooks the order of properties and nothing else:
it is what putting the properties of single nodes in another order generates, wherever in the
document the nodes stand. Documents that are the same are interchangeable. -/
theorem same_equivalence {a b c : Node} (ha : a.WellFormed) (hb : b.WellFormed)
    (hc : c.WellFormed) :
    a.same a = true ∧
    (a.same b = true → b.same a = true) ∧
    (a.same b = true → b.same c = true → a.same c = true) ∧
    (∀ changed, a.Reorders changed → changed.WellFormed ∧ a.same changed = true) ∧
    (a.same b = true ↔ Relation.ReflTransGen Reorders a b) ∧
    (a.same b = true → a.Interchangeable b) :=
  ⟨same_refl ha, same_symm ha hb, same_trans ha hb hc,
    fun _ h => ⟨h.wellFormed ha, h.same ha⟩, same_iff_reorders ha hb,
    interchangeable_of_same ha hb⟩

/-- Two properties in one of their two orders. -/
def pair (turned : Bool) : List (String × Property Node) :=
  if turned then [("b", .child (.bare "B")), ("a", .value (.boolean true))]
  else [("a", .value (.boolean true)), ("b", .child (.bare "B"))]

/-- Blocks with two properties in the pattern of the only block. -/
def patterned (turned : Bool) : Property Node :=
  .blockList [⟨⟨.normal, .mk "P" (pair turned), .bare "S"⟩, [.bare "X"]⟩]

/-- A document with two properties in the pattern of a block and two in an item that is retained. -/
def layered (inPattern inItem : Bool) : Node :=
  .mk "Root" [("groups", patterned inPattern),
    ("kept", .optional false (some (.mk "K" (pair inItem))))]

/-- When first the properties of a pattern and then those of a retained item are put in another
order, the outcome is the same as the document and interchangeable with it. -/
theorem same_equivalence_layered : (layered false false).same (layered true true) = true ∧
    (layered false false).Interchangeable (layered true true) := by
  have hswap : ∀ kind, (mk kind (pair false)).Reorders (mk kind (pair true)) := fun _ =>
    .here (.swap _ _ [])
  have hpattern : (layered false false).Reorders (layered true false) :=
    @Reorders.inside _ _ _ "groups" _ (patterned true) rfl (hswap "P")
      (.block (.pattern _ _ _) (.head []))
  have hitem : (layered true false).Reorders (layered true true) :=
    @Reorders.inside _ _ _ "kept" _ (.optional false (some (.mk "K" (pair true)))) rfl
      (hswap "K") (.item false)
  obtain ⟨-, -, -, -, hsteps, hchange⟩ := same_equivalence (a := layered false false)
    (b := layered true true) (c := layered true false) (by decide) (by decide) (by decide)
  have hsame := hsteps.mpr (.tail (.single hpattern) hitem)
  exact ⟨hsame, hchange hsame⟩

end Node

end TreeEditor
