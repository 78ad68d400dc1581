import TreeEditor.Document.Descent
import TreeEditor.Proofs.Grammar

/-!
# Paths into a document

`Grammar.reach` follows a path through properties with children. It is the descent of the editor
(`Grammar.descend_of_reach`) restricted to what takes part in the editing. `Node.put` puts a node at
the end of a path. The walk that writes opens what the walk that reads finds (`Node.openAt_eq`), so
changing the node at a path is putting the changed one there (`Node.modifyAt_eq_ok`).

What is reached after a node was put somewhere depends on how the two paths lie: below the place it
is what the new node has there (`Grammar.reach_put_append`), and above it the old node with the new
one put into it (`Grammar.reach_put_above`).
-/

namespace TreeEditor

namespace Node

section Reading

variable {node : Node} {name : String} {P : Property Node}

/-- A property that is there can be read. -/
theorem require_eq_ok (h : node.property? name = some P) : node.require name = .ok P := by
  rw [require, h]

/-- The leaf of a value property can be read. -/
theorem value_eq_ok {leaf : Leaf} :
    node.value name = .ok leaf ↔ node.property? name = some (.value leaf) := by
  unfold value require
  cases node.property? name with
  | none => simp
  | some P => cases P <;> simp

/-- The node of a mandatory child can be read. -/
theorem child_eq_ok {held : Node} :
    node.child name = .ok held ↔ node.property? name = some (.child held) := by
  unfold child require
  cases node.property? name with
  | none => simp
  | some P => cases P <;> simp

/-- The item of an optional child can be read. -/
theorem optional_eq_ok {assigned : Bool} {item : Option Node} :
    node.optional name = .ok (assigned, item) ↔
      node.property? name = some (.optional assigned item) := by
  unfold optional require
  cases node.property? name with
  | none => simp
  | some P => cases P <;> simp

/-- The nodes of a list can be read. -/
theorem list_eq_ok {nodes : List Node} :
    node.list name = .ok nodes ↔ node.property? name = some (.list nodes) := by
  unfold list require
  cases node.property? name with
  | none => simp
  | some P => cases P <;> simp

/-- The blocks of a list of blocks can be read. -/
theorem blockList_eq_ok {blocks : List (Block Node Node)} :
    node.blockList name = .ok blocks ↔ node.property? name = some (.blockList blocks) := by
  unfold blockList require
  cases node.property? name with
  | none => simp
  | some P => cases P <;> simp

end Reading

/-- Where a step leads: a slot is read from a property of the kind that has such slots, and every
other property is a fault of shape. -/
theorem step_eq (node : Node) (step : Step) : node.step step =
    match node.property? step.property with
    | none => .error (.shape (.missingProperty node.kind step.property))
    | some P =>
      if P.kind = step.slot.kind then (P.childAt? step.slot).elim (.error (.noNodeAt step)) .ok
      else .error (.shape (.unexpectedKind node.kind step.property step.slot.kind P.kind)) := by
  obtain ⟨name, slot⟩ := step
  cases hP : node.property? name with
  | none => cases slot <;> simp [Node.step, child, optional, list, blockList, require, hP]
  | some P =>
    have hread : node.require name = .ok P := require_eq_ok hP
    -- Each slot is read by an accessor of its own, which knows one kind of property.
    cases slot with
    | placeholder =>
      rw [Node.step, child, hread, ok_bind]
      cases P <;> rfl
    | optional =>
      rw [Node.step, optional, hread, ok_bind]
      cases P with
      | optional assigned item => cases assigned <;> cases item <;> rfl
      | _ => rfl
    | list position =>
      rw [Node.step, list, hread, ok_bind]
      cases P with
      | list nodes =>
        cases hheld : nodes[position]? <;>
          simp [hheld, Property.childAt?, Property.kind, Slot.kind]
      | _ => rfl
    | member block position =>
      rw [Node.step, blockList, hread, ok_bind]
      cases P with
      | blockList blocks =>
        cases hblock : blocks[block]? with
        | none => simp [hblock, Property.childAt?, Property.kind, Slot.kind]
        | some content =>
          cases hheld : content.members[position]? <;>
            simp [hblock, hheld, Property.childAt?, Property.kind, Slot.kind]
      | _ => rfl

/-- A step leads to the child in its slot. -/
theorem step_eq_ok {node child : Node} {step : Step} : node.step step = .ok child ↔
    ∃ P, node.property? step.property = some P ∧ P.childAt? step.slot = some child := by
  rw [step_eq]
  cases node.property? step.property with
  | none => simp
  | some P =>
    cases hchild : P.childAt? step.slot with
    | none =>
      dsimp only
      split <;> simp [hchild]
    | some held => simp [hchild, Property.kind_of_childAt? hchild]

/-- A path is followed one part after the other. -/
theorem descend_append (node : Node) (path rest : Path) :
    node.descend (path ++ rest) = node.descend path >>= fun found => found.descend rest := by
  induction path generalizing node with
  | nil => rfl
  | cons step path ih =>
    rw [List.cons_append, descend, descend]
    cases node.step step with
    | error reason => rfl
    | ok child => exact ih child

/-- A node with one of its properties changed. -/
def modifyProperty (node : Node) (name : String) (change : Property Node → Property Node) : Node :=
  match node.property? name with
  | some property => node.set name (change property)
  | none => node

/-- A node with the child that a step leads to replaced. -/
def replaceChild (node : Node) (step : Step) (child : Node) : Node :=
  node.modifyProperty step.property (Property.replaceChild step.slot child)

/-- The child that a step leads to is one of the nodes under the property. -/
theorem replaceChild_eq {node : Node} {step : Step} {P : Property Node} (child : Node)
    (h : node.property? step.property = some P) :
    node.replaceChild step child = node.set step.property (P.replaceChild step.slot child) := by
  rw [replaceChild, modifyProperty, h]

/-- The property of a name after one was set. -/
theorem property?_set (node : Node) (name other : String) (P : Property Node) :
    (node.set name P).property? other = if other = name then some P else node.property? other :=
  Table.get?_set name other P node.properties

/-- Setting a property to what it is changes nothing. -/
theorem set_property? {node : Node} {name : String} {P : Property Node}
    (h : node.property? name = some P) : node.set name P = node := by
  rw [set, Table.set_get? h, mk_kind_properties]

/-- Of two properties set under one name the second remains. -/
theorem set_set (node : Node) (name : String) (P P' : Property Node) :
    (node.set name P).set name P' = node.set name P' := by
  simp [set, Table.set_set, kind_mk, properties_mk]

/-- A document with a node put at the end of a path; a path that leads nowhere changes nothing. -/
def put (node : Node) (path : Path) (new : Node) : Node :=
  match path with
  | [] => new
  | step :: rest =>
    match node.step step with
    | .ok child => node.replaceChild step (child.put rest new)
    | .error _ => node

/-- Putting a node below a child is putting it into the child. -/
theorem put_cons {node child : Node} {step : Step} (h : node.step step = .ok child) (rest : Path)
    (new : Node) : node.put (step :: rest) new = node.replaceChild step (child.put rest new) := by
  rw [put, h]

/-! ## Opening for writing -/

section Opening

variable (node : Node) (name : String)

/-- A mandatory child is opened where it can be read. -/
theorem openChild_eq : node.openChild name =
    (node.child name).map fun held => ⟨held, fun new => node.set name (.child new)⟩ := by
  unfold openChild openAs child require
  cases node.property? name with
  | none => rfl
  | some P => cases P <;> rfl

/-- An optional child is opened where it can be read. -/
theorem openOptional_eq : node.openOptional name = (node.optional name).map fun content =>
    ⟨content, fun new => node.set name (.optional new.1 new.2)⟩ := by
  unfold openOptional openAs optional require
  cases node.property? name with
  | none => rfl
  | some P => cases P <;> rfl

/-- A list is opened where it can be read. -/
theorem openList_eq : node.openList name =
    (node.list name).map fun nodes => ⟨nodes, fun new => node.set name (.list new)⟩ := by
  unfold openList openAs list require
  cases node.property? name with
  | none => rfl
  | some P => cases P <;> rfl

/-- A list of blocks is opened where it can be read. -/
theorem openBlockList_eq : node.openBlockList name = (node.blockList name).map fun blocks =>
    ⟨blocks, fun new => node.set name (.blockList new)⟩ := by
  unfold openBlockList openAs blockList require
  cases node.property? name with
  | none => rfl
  | some P => cases P <;> rfl

end Opening

/-- The walk that writes makes a step where the walk that reads makes it, and fails where that one
fails; what it can put in the place of the child is a replacement of the child. -/
theorem openStep_eq (node : Node) (step : Step) : node.openStep step =
    (node.step step).map fun child => ⟨child, node.replaceChild step⟩ := by
  obtain ⟨name, slot⟩ := step
  -- The writing of a step is that of the property which the reading finds.
  have hwrite : ∀ P slot, node.property? name = some P →
      node.replaceChild ⟨name, slot⟩ = fun new => node.set name (P.replaceChild slot new) := by
    intro P slot hP
    funext new
    exact replaceChild_eq new hP
  cases slot with
  | placeholder =>
    rw [openStep, Node.step, openChild_eq]
    cases hread : node.child name with
    | error fault => rfl
    | ok held =>
      rw [hwrite _ _ (child_eq_ok.mp hread)]
      rfl
  | optional =>
    rw [openStep, Node.step, openOptional_eq]
    cases hread : node.optional name with
    | error fault => rfl
    | ok content =>
      obtain ⟨assigned, item⟩ := content
      rw [hwrite _ _ (optional_eq_ok.mp hread)]
      cases assigned <;> cases item <;> rfl
  | list position =>
    rw [openStep, Node.step, openList_eq]
    cases hread : node.list name with
    | error fault => rfl
    | ok nodes =>
      rw [hwrite _ _ (list_eq_ok.mp hread)]
      simp only [Except.map, refuseShape_ok, ok_bind]
      cases nodes[position]? <;> rfl
  | member block position =>
    rw [openStep, Node.step, openBlockList_eq]
    cases hread : node.blockList name with
    | error fault => rfl
    | ok blocks =>
      rw [hwrite _ _ (blockList_eq_ok.mp hread)]
      simp only [Except.map, refuseShape_ok, ok_bind]
      cases hblock : blocks[block]? with
      | none => rfl
      | some content =>
        have hmodify : ∀ new, blocks.modify block (fun content =>
            { content with members := content.members.set position new }) =
            blocks.set block { content with members := content.members.set position new } := by
          intro new
          rw [List.modify_eq_set_getElem?, hblock]
          rfl
        simp only [Property.replaceChild, hmodify]
        cases content.members[position]? <;> rfl

/-- The walk that writes finds the node that the walk that reads finds, and fails where that one
fails; what it can put in the place of the node is put at the end of the path. -/
theorem openAt_eq (node : Node) (path : Path) :
    node.openAt path = (node.descend path).map fun found => ⟨found, node.put path⟩ := by
  induction path generalizing node with
  | nil => rfl
  | cons step rest ih =>
    rw [openAt, descend, openStep_eq]
    cases hstep : node.step step with
    | error reason => rfl
    | ok child =>
      have hput : node.put (step :: rest) =
          fun new => node.replaceChild step (child.put rest new) :=
        funext fun new => put_cons hstep rest new
      have hrest := ih child
      rw [hput]
      simp only [Except.map, ok_bind] at hrest ⊢
      rw [hrest]
      cases child.descend rest <;> rfl

/-- Changing the node at a path is putting the changed one there. -/
theorem modifyAt_eq_ok {node found new : Node} {path : Path}
    {change : Node → Except Refusal Node} (h : node.descend path = .ok found)
    (hchange : change found = .ok new) :
    node.modifyAt change path = .ok (node.put path new) := by
  have hopen : node.openAt path = .ok ⟨found, node.put path⟩ := by
    rw [openAt_eq, h]
    rfl
  rw [modifyAt, hopen, ok_bind, hchange]
  rfl

/-- Nodes that are the same stay so when corresponding properties are set. -/
theorem Same.set {a b : Node} (ha : a.WellFormed) (hb : b.WellFormed) (h : a.Same b)
    {P Q : Property Node} (hPQ : P.Corresponds Same Q)
    (name : String) : (a.set name P).Same (b.set name Q) := by
  obtain ⟨hkind, hrel⟩ := (same_iff ha.keys hb.keys).mp h
  have ha' : (Table.keys (a.set name P).properties).Nodup := Table.nodup_keys_set ha.keys P
  have hb' : (Table.keys (b.set name Q).properties).Nodup := Table.nodup_keys_set hb.keys Q
  refine (same_iff ha' hb').mpr ⟨hkind, fun other => ?_⟩
  rw [property?_set, property?_set]
  split
  · exact .some hPQ
  · exact hrel other

end Node

namespace Grammar

variable {grammar : Grammar}

/-- The child that a step leads to, if the step is one through a property with children. -/
def stepTo (grammar : Grammar) (node : Node) (step : Step) : Option Node :=
  (grammar.branch? node step.property).bind fun P => P.childAt? step.slot

/-- The node that a path leads to through properties with children. -/
def reach (grammar : Grammar) (node : Node) : Path → Option Node
  | [] => some node
  | step :: rest => (grammar.stepTo node step).bind fun child => grammar.reach child rest

/-- The parts of a step. -/
theorem stepTo_eq_some {node child : Node} {step : Step} :
    grammar.stepTo node step = some child ↔ ∃ P, grammar.branch? node step.property = some P ∧
      P.childAt? step.slot = some child := Option.bind_eq_some_iff

/-- Reaching along a path in two parts is reaching along one part after the other. -/
theorem reach_append (node : Node) (path rest : Path) :
    grammar.reach node (path ++ rest) =
      (grammar.reach node path).bind fun found => grammar.reach found rest := by
  induction path generalizing node with
  | nil => rfl
  | cons step path ih =>
    simp only [List.cons_append, reach]
    cases grammar.stepTo node step with
    | none => rfl
    | some child => exact ih child

/-- A path of one step. -/
theorem reach_singleton (node : Node) (step : Step) :
    grammar.reach node [step] = grammar.stepTo node step := by
  simp [reach]

section WellFormed

variable {node child found : Node} {step : Step} {path : Path}

/-- A step through a property with children is a step of the descent. -/
theorem step_of_stepTo (hnode : node.WellFormed) (h : grammar.stepTo node step = some child) :
    node.step step = .ok child := by
  obtain ⟨P, hP, hchild⟩ := stepTo_eq_some.mp h
  exact Node.step_eq_ok.mpr ⟨P, property?_of_branch? hnode.keys hP, hchild⟩

/-- A step of the document into a branch is a step of the grammar. -/
theorem stepTo_of_step (hnode : node.WellFormed) {P : Property Node}
    (hP : grammar.branch? node step.property = some P) (h : node.step step = .ok child) :
    grammar.stepTo node step = some child := by
  obtain ⟨Q, hQ, hchild⟩ := Node.step_eq_ok.mp h
  rw [property?_of_branch? hnode.keys hP] at hQ
  cases hQ
  exact stepTo_eq_some.mpr ⟨P, hP, hchild⟩

/-- What holds everywhere in a document holds everywhere below a child. -/
theorem everywhere_stepTo {p : Node → Prop} (hnode : node.WellFormed) (hp : node.Everywhere p)
    (h : grammar.stepTo node step = some child) : child.Everywhere p := by
  obtain ⟨P, hP, hchild⟩ := stepTo_eq_some.mp h
  exact hp.property (property?_of_branch? hnode.keys hP) (Property.mem_nodes_of_childAt? hchild)

/-- What holds everywhere in a document holds everywhere below a node that is reached. -/
theorem everywhere_reach {p : Node → Prop} (hnode : node.WellFormed) (hp : node.Everywhere p)
    (h : grammar.reach node path = some found) : found.Everywhere p := by
  induction path generalizing node with
  | nil =>
    cases h
    exact hp
  | cons step rest ih =>
    obtain ⟨child, hstep, hrest⟩ := Option.bind_eq_some_iff.mp h
    exact ih (everywhere_stepTo hnode hnode hstep) (everywhere_stepTo hnode hp hstep) hrest

/-- The nodes of a well-formed document are well-formed. -/
theorem wellFormed_reach (hnode : node.WellFormed) (h : grammar.reach node path = some found) :
    found.WellFormed := everywhere_reach hnode hnode h

/-- The descent finds what is reached. -/
theorem descend_of_reach (hnode : node.WellFormed)
    (h : grammar.reach node path = some found) : node.descend path = .ok found := by
  induction path generalizing node with
  | nil =>
    cases h
    rfl
  | cons step rest ih =>
    obtain ⟨child, hstep, hrest⟩ := Option.bind_eq_some_iff.mp h
    rw [Node.descend, step_of_stepTo hnode hstep]
    exact ih (everywhere_stepTo hnode hnode hstep) hrest

/-- A child of a valid node is admitted where it stands. -/
theorem Valid.stepTo (h : grammar.Valid node) (hnode : node.WellFormed)
    (hstep : grammar.stepTo node step = some child) :
    grammar.Admits node.kind step.property child := by
  obtain ⟨P, hP, hchild⟩ := stepTo_eq_some.mp hstep
  exact (h.fits hnode.keys hP).admits _ _ hchild

/-- The nodes of a valid document are valid. -/
theorem Valid.reach (h : grammar.Valid node) (hnode : node.WellFormed)
    (hreach : grammar.reach node path = some found) : grammar.Valid found := by
  induction path generalizing node with
  | nil =>
    cases hreach
    exact h
  | cons step rest ih =>
    obtain ⟨child, hstep, hrest⟩ := Option.bind_eq_some_iff.mp hreach
    exact ih (h.stepTo hnode hstep).valid (everywhere_stepTo hnode hnode hstep) hrest

/-- Nodes that are the same have children that are the same. -/
theorem stepTo_same {other : Node} (hnode : node.WellFormed) (hother : other.WellFormed)
    (h : node.Same other) (hstep : grammar.stepTo other step = some child) :
    ∃ child', grammar.stepTo node step = some child' ∧ child'.Same child := by
  obtain ⟨Q, hQ, hchild⟩ := stepTo_eq_some.mp hstep
  obtain ⟨P, hP, hPQ⟩ := branch?_same hnode hother h hQ
  have hrel := hPQ.childAt? step.slot
  rw [hchild, rel_some_right] at hrel
  obtain ⟨child', hchild', hsame⟩ := hrel
  exact ⟨child', stepTo_eq_some.mpr ⟨P, hP, hchild'⟩, hsame⟩

/-- Documents that are the same have the same nodes. -/
theorem reach_same {other : Node} (hnode : node.WellFormed) (hother : other.WellFormed)
    (h : node.Same other) (hreach : grammar.reach other path = some found) :
    ∃ found', grammar.reach node path = some found' ∧ found'.Same found := by
  induction path generalizing node other with
  | nil =>
    cases hreach
    exact ⟨node, rfl, h⟩
  | cons step rest ih =>
    obtain ⟨child, hstep, hrest⟩ := Option.bind_eq_some_iff.mp hreach
    obtain ⟨child', hstep', hsame⟩ := stepTo_same hnode hother h hstep
    obtain ⟨found', hfound', hsame'⟩ := ih (everywhere_stepTo hnode hnode hstep')
      (everywhere_stepTo hother hother hstep) hsame hrest
    exact ⟨found', Option.bind_eq_some_iff.mpr ⟨child', hstep', hfound'⟩, hsame'⟩

/-! ## Putting a node at a path -/

/-- The properties with children after a child was replaced. -/
theorem branch?_replaceChild (hnode : node.WellFormed)
    (hstep : grammar.stepTo node step = some child) (new : Node) (name : String) :
    grammar.branch? (node.replaceChild step new) name =
      if name = step.property then
        (grammar.branch? node name).map fun P => P.replaceChild step.slot new
      else grammar.branch? node name := by
  obtain ⟨P, hP, hchild⟩ := stepTo_eq_some.mp hstep
  have hproperty := property?_of_branch? hnode.keys hP
  rw [Node.replaceChild_eq new hproperty,
    branch?_set hnode.keys hproperty Property.kind_replaceChild]
  split
  · rename_i heq
    rw [heq, hP]
    rfl
  · rfl

/-- Where a step leads after a child was replaced. -/
theorem stepTo_replaceChild (hnode : node.WellFormed)
    (hstep : grammar.stepTo node step = some child) (new : Node) (other : Step) :
    grammar.stepTo (node.replaceChild step new) other =
      if other = step then some new else grammar.stepTo node other := by
  obtain ⟨P, hP, hchild⟩ := stepTo_eq_some.mp hstep
  obtain ⟨name, slot⟩ := other
  unfold stepTo
  rw [branch?_replaceChild hnode hstep]
  by_cases hname : name = step.property
  · subst hname
    rw [if_pos rfl, hP]
    simp only [Option.map_some, Option.bind_some]
    rw [Property.childAt?_replaceChild, hchild]
    by_cases hslot : slot = step.slot
    · rw [if_pos hslot, if_pos (by rw [hslot])]
      rfl
    · rw [if_neg hslot, if_neg fun h => hslot (by rw [← h])]
  · rw [if_neg hname, if_neg fun h => hname (by rw [← h])]

variable {new : Node}

/-- A document in which a child was replaced by a well-formed one is well-formed. -/
theorem wellFormed_replaceChild (hnode : node.WellFormed)
    (hstep : grammar.stepTo node step = some child) (hnew : new.WellFormed) :
    (node.replaceChild step new).WellFormed := by
  obtain ⟨P, hP, hchild⟩ := stepTo_eq_some.mp hstep
  have hproperty := property?_of_branch? hnode.keys hP
  rw [Node.replaceChild_eq new hproperty]
  refine hnode.set fun other hother => ?_
  rcases Property.mem_nodes_replaceChild hother with rfl | hold
  · exact hnew
  · exact Node.Everywhere.property hnode hproperty hold

/-- A document with a well-formed node put somewhere is well-formed. -/
theorem wellFormed_put (hnode : node.WellFormed) (h : grammar.reach node path = some found)
    (hnew : new.WellFormed) : (node.put path new).WellFormed := by
  induction path generalizing node with
  | nil => exact hnew
  | cons step rest ih =>
    obtain ⟨child, hstep, hrest⟩ := Option.bind_eq_some_iff.mp h
    rw [Node.put_cons (step_of_stepTo hnode hstep)]
    exact wellFormed_replaceChild hnode hstep (ih (everywhere_stepTo hnode hnode hstep) hrest)

/-- A filled document with a filled node put somewhere is filled. -/
theorem filled_put (hnode : node.WellFormed) (hfilled : node.Filled)
    (h : grammar.reach node path = some found) (hnew : new.Filled) :
    (node.put path new).Filled := by
  induction path generalizing node with
  | nil => exact hnew
  | cons step rest ih =>
    obtain ⟨child, hstep, hrest⟩ := Option.bind_eq_some_iff.mp h
    obtain ⟨P, hP, hchild⟩ := stepTo_eq_some.mp hstep
    have hproperty := property?_of_branch? hnode.keys hP
    have hput := ih (everywhere_stepTo hnode hnode hstep) (everywhere_stepTo hnode hfilled hstep)
      hrest
    rw [Node.put_cons (step_of_stepTo hnode hstep), Node.replaceChild_eq _ hproperty]
    refine hfilled.set ?_ fun other hother => ?_
    · exact Property.replaceChild_ne_optional
        (hfilled.here (step.property, P) (Table.mem_of_get? hproperty))
    · rcases Property.mem_nodes_replaceChild hother with rfl | hold
      · exact hput
      · exact Node.Everywhere.property hfilled hproperty hold

/-- A document keeps its kind when a node of the old one's kind is put somewhere. -/
theorem kind_put (hnode : node.WellFormed) (h : grammar.reach node path = some found)
    (hkind : new.kind = found.kind) : (node.put path new).kind = node.kind := by
  cases path with
  | nil =>
    cases h
    exact hkind
  | cons step rest =>
    obtain ⟨child, hstep, -⟩ := Option.bind_eq_some_iff.mp h
    obtain ⟨P, hP, -⟩ := stepTo_eq_some.mp hstep
    rw [Node.put_cons (step_of_stepTo hnode hstep),
      Node.replaceChild_eq _ (property?_of_branch? hnode.keys hP), Node.kind_set]

/-- A valid document with a valid node put in the place of one of its kind is valid. -/
theorem Valid.put (hvalid : grammar.Valid node) (hnode : node.WellFormed)
    (h : grammar.reach node path = some found) (hnew : new.WellFormed)
    (hkind : new.kind = found.kind) (hnew' : grammar.Valid new) :
    grammar.Valid (node.put path new) := by
  -- By induction on the path, with the validity of each child that is met carried down.
  induction path generalizing node with
  | nil => exact hnew'
  | cons step rest ih =>
    obtain ⟨child, hstep, hrest⟩ := Option.bind_eq_some_iff.mp h
    obtain ⟨P, hP, hchild⟩ := stepTo_eq_some.mp hstep
    have hproperty := property?_of_branch? hnode.keys hP
    have hwf := everywhere_stepTo hnode hnode hstep
    have hadmits := hvalid.stepTo hnode hstep
    have hfits := hvalid.fits hnode.keys hP
    rw [Node.put_cons (step_of_stepTo hnode hstep), Node.replaceChild_eq _ hproperty]
    refine hvalid.set hnode hproperty Property.kind_replaceChild (fun _ => ?_)
      fun other hother => ?_
    · refine ⟨hfits.populated.replaceChild, fun slot other hother => ?_⟩
      rw [Property.childAt?_replaceChild, hchild] at hother
      split at hother
      · cases hother
        refine ⟨?_, ih hadmits.valid hwf hrest⟩
        rw [kind_put hwf hrest hkind]
        exact hadmits.accepted
      · exact hfits.admits slot other hother
    · rcases Property.mem_nodes_replaceChild hother with rfl | hold
      · exact wellFormed_put hwf hrest hnew
      · exact Node.Everywhere.property hnode hproperty hold

/-- Putting a node below a node that is reached is putting the changed node there. -/
theorem put_append (hnode : node.WellFormed) (h : grammar.reach node path = some found)
    (rest : Path) (new : Node) :
    node.put (path ++ rest) new = node.put path (found.put rest new) := by
  induction path generalizing node with
  | nil =>
    cases h
    rfl
  | cons step path ih =>
    obtain ⟨child, hstep, hrest⟩ := Option.bind_eq_some_iff.mp h
    have hchild := step_of_stepTo hnode hstep
    rw [List.cons_append, Node.put_cons hchild, Node.put_cons hchild,
      ih (everywhere_stepTo hnode hnode hstep) hrest]

/-- Below the place where a node was put is what the new node has there. -/
theorem reach_put_append (hnode : node.WellFormed) (h : grammar.reach node path = some found)
    (rest : Path) : grammar.reach (node.put path new) (path ++ rest) = grammar.reach new rest := by
  induction path generalizing node with
  | nil => rfl
  | cons step path ih =>
    obtain ⟨child, hstep, hrest⟩ := Option.bind_eq_some_iff.mp h
    rw [Node.put_cons (step_of_stepTo hnode hstep), List.cons_append, reach,
      stepTo_replaceChild hnode hstep, if_pos rfl]
    exact ih (everywhere_stepTo hnode hnode hstep) hrest

/-- At the place where a node was put is the new node. -/
theorem reach_put (hnode : node.WellFormed) (h : grammar.reach node path = some found) :
    grammar.reach (node.put path new) path = some new := by
  have happend : grammar.reach (node.put path new) (path ++ []) = grammar.reach new [] :=
    reach_put_append hnode h []
  rwa [List.append_nil] at happend

/-- Above the place where a node was put is what was there, with the new node put into it. -/
theorem reach_put_above {above : Node} (hnode : node.WellFormed)
    (h : grammar.reach node path = some above) (rest : Path) :
    grammar.reach (node.put (path ++ rest) new) path = some (above.put rest new) := by
  induction path generalizing node with
  | nil =>
    cases h
    rfl
  | cons step path ih =>
    obtain ⟨child, hstep, hpath⟩ := Option.bind_eq_some_iff.mp h
    rw [List.cons_append, Node.put_cons (step_of_stepTo hnode hstep), reach,
      stepTo_replaceChild hnode hstep, if_pos rfl]
    exact ih (everywhere_stepTo hnode hnode hstep) hpath

/-- Putting a node where it is changes nothing. -/
theorem put_self (hnode : node.WellFormed) (h : grammar.reach node path = some found) :
    node.put path found = node := by
  induction path generalizing node with
  | nil =>
    cases h
    rfl
  | cons step rest ih =>
    obtain ⟨child, hstep, hrest⟩ := Option.bind_eq_some_iff.mp h
    obtain ⟨P, hP, hchild⟩ := stepTo_eq_some.mp hstep
    have hproperty := property?_of_branch? hnode.keys hP
    rw [Node.put_cons (step_of_stepTo hnode hstep),
      ih (everywhere_stepTo hnode hnode hstep) hrest, Node.replaceChild_eq _ hproperty,
      Property.replaceChild_self hchild, Node.set_property? hproperty]

/-- Of two nodes put at one place the second remains. -/
theorem put_put (hnode : node.WellFormed) (h : grammar.reach node path = some found)
    (new' : Node) : (node.put path new).put path new' = node.put path new' := by
  induction path generalizing node with
  | nil => rfl
  | cons step rest ih =>
    obtain ⟨child, hstep, hrest⟩ := Option.bind_eq_some_iff.mp h
    obtain ⟨P, hP, hchild⟩ := stepTo_eq_some.mp hstep
    have hproperty := property?_of_branch? hnode.keys hP
    have hwf := everywhere_stepTo hnode hnode hstep
    have hset : (node.replaceChild step (child.put rest new)).property? step.property =
        some (P.replaceChild step.slot (child.put rest new)) := by
      rw [Node.replaceChild_eq _ hproperty, Node.property?_set, if_pos rfl]
    have hstep' : (node.replaceChild step (child.put rest new)).step step =
        .ok (child.put rest new) := by
      refine Node.step_eq_ok.mpr ⟨_, hset, ?_⟩
      rw [Property.childAt?_replaceChild, if_pos rfl, hchild]
      rfl
    rw [Node.put_cons (step_of_stepTo hnode hstep), Node.put_cons hstep', ih hwf hrest,
      Node.put_cons (step_of_stepTo hnode hstep), Node.replaceChild_eq _ hset,
      Node.replaceChild_eq _ hproperty, Node.replaceChild_eq _ hproperty, Node.set_set,
      Property.replaceChild_replaceChild]

/-- Documents that are the same stay so when nodes that are the same are put at one place. -/
theorem put_same {other found' new' : Node} (hnode : node.WellFormed) (hother : other.WellFormed)
    (h : node.Same other) (hreach : grammar.reach node path = some found)
    (hreach' : grammar.reach other path = some found') (hnew : new.Same new') :
    (node.put path new).Same (other.put path new') := by
  induction path generalizing node other with
  | nil => exact hnew
  | cons step rest ih =>
    obtain ⟨child, hstep, hrest⟩ := Option.bind_eq_some_iff.mp hreach
    obtain ⟨child', hstep', hrest'⟩ := Option.bind_eq_some_iff.mp hreach'
    obtain ⟨P', hP', hchild'⟩ := stepTo_eq_some.mp hstep'
    obtain ⟨P, hP, hPP'⟩ := branch?_same hnode hother h hP'
    have hsame : child.Same child' := by
      obtain ⟨child'', hstep'', hsame⟩ := stepTo_same hnode hother h hstep'
      rw [hstep] at hstep''
      cases hstep''
      exact hsame
    rw [Node.put_cons (step_of_stepTo hnode hstep), Node.put_cons (step_of_stepTo hother hstep'),
      Node.replaceChild_eq _ (property?_of_branch? hnode.keys hP),
      Node.replaceChild_eq _ (property?_of_branch? hother.keys hP')]
    exact Node.Same.set hnode hother h (hPP'.replaceChild
      (ih (everywhere_stepTo hnode hnode hstep) (everywhere_stepTo hother hother hstep') hsame
        hrest hrest') _) _

end WellFormed

end Grammar

end TreeEditor
