import TreeEditor.Proofs.Descent

/-!
# Writing at a path

An edit reads a document by one walk and writes to it by another. The two address the same place:
`Node.openAt` opens the node that `Node.descend` finds, and where there is none both say so in the
same words. What is written at a place is local. It is found there afterwards
(`Node.descend_put`), every node above has one child replaced and is otherwise what it was
(`Node.descend_put_above`), and a path to any other place gives what it gave before
(`Node.descend_put_other`), a refusal included.

None of this depends on how a document came about, so nothing is assumed of it: a node may even name
a property twice.
-/

namespace TreeEditor

namespace Node

variable {node child found new : Node} {step : Step} {path : Path}

/-! ## One step -/

/-- Replacing the child in a slot keeps the kind of a node. -/
@[simp]
theorem kind_replaceChild : (node.replaceChild step new).kind = node.kind := by
  unfold replaceChild modifyProperty
  split
  · exact kind_set ..
  · rfl

/-- Replacing the child in a slot changes the property with the slot and no other one. -/
theorem property?_replaceChild {P : Property Node} (hP : node.property? step.property = some P)
    (new : Node) (name : String) : (node.replaceChild step new).property? name =
      if name = step.property then some (P.replaceChild step.slot new)
      else node.property? name := by
  rw [replaceChild_eq new hP, property?_set]

/-- Replacing a child keeps the names of the properties and their order. -/
theorem keys_replaceChild (h : node.step step = .ok child) (new : Node) :
    Table.keys (node.replaceChild step new).properties = Table.keys node.properties := by
  obtain ⟨P, hP, -⟩ := step_eq_ok.mp h
  have hmem : step.property ∈ Table.keys node.properties :=
    List.mem_map_of_mem (f := Prod.fst) (Table.mem_of_get? hP)
  rw [replaceChild_eq new hP, set, properties_mk]
  exact Table.keys_set_of_mem hmem _

/-- Where the steps from a node lead after a child was replaced: to the new child in its slot, and
everywhere else to what was there, or into the same refusal. -/
theorem step_replaceChild (h : node.step step = .ok child) (new : Node) (other : Step) :
    (node.replaceChild step new).step other =
      if other = step then .ok new else node.step other := by
  obtain ⟨P, hP, hchild⟩ := step_eq_ok.mp h
  obtain ⟨name, slot⟩ := step
  obtain ⟨name', slot'⟩ := other
  -- A refusal names the kinds of the node and of the property, and both are as they were.
  rw [step_eq, step_eq, kind_replaceChild, property?_replaceChild hP]
  by_cases hname : name' = name
  · subst hname
    have hkind := Property.kind_of_childAt? hchild
    by_cases hslot : slot' = slot
    · subst hslot
      have hthere : (P.replaceChild slot' new).childAt? slot' = some new := by
        rw [Property.childAt?_replaceChild, if_pos rfl, hchild, Option.map_some]
      simp [hthere, hkind]
    · have hbeside : (P.replaceChild slot new).childAt? slot' = P.childAt? slot' := by
        rw [Property.childAt?_replaceChild, if_neg hslot]
      simp [hbeside, hP, hslot]
  · simp [hname]

/-! ## A path -/

/-- What was put at the end of a path is found there. -/
theorem descend_put (h : node.descend path = .ok found) (new : Node) :
    (node.put path new).descend path = .ok new := by
  induction path generalizing node with
  | nil => rfl
  | cons step rest ih =>
    obtain ⟨child, hstep, hrest⟩ := bind_eq_ok.mp h
    rw [put_cons hstep, descend, step_replaceChild hstep, if_pos rfl, ok_bind]
    exact ih hrest

/-- A node above the place where something was put is what it was, with one child replaced. -/
theorem descend_put_above {above : Path} {step : Step} {rest : Path}
    (h : node.descend (above ++ step :: rest) = .ok found) (new : Node) :
    ∃ old child, node.descend above = .ok old ∧ old.step step = .ok child ∧
      (node.put (above ++ step :: rest) new).descend above =
        .ok (old.replaceChild step (child.put rest new)) := by
  induction above generalizing node with
  | nil =>
    obtain ⟨child, hstep, -⟩ := bind_eq_ok.mp h
    refine ⟨node, child, rfl, hstep, ?_⟩
    rw [List.nil_append, put_cons hstep, descend]
  | cons first above ih =>
    obtain ⟨next, hfirst, hnext⟩ := bind_eq_ok.mp h
    obtain ⟨old, child, hold, hstep, hput⟩ := ih hnext
    refine ⟨old, child, ?_, hstep, ?_⟩
    · rw [descend, hfirst, ok_bind, hold]
    · rw [List.cons_append, put_cons hfirst, descend, step_replaceChild hfirst, if_pos rfl, ok_bind,
        hput]

/-- A path that leads neither to the place where something was put, nor above or below it, gives
what it gave before. -/
theorem descend_put_other {other : Path} (h : node.descend path = .ok found) (new : Node)
    (habove : ¬ other <+: path) (hbelow : ¬ path <+: other) :
    (node.put path new).descend other = node.descend other := by
  induction path generalizing node other with
  | nil => exact absurd List.nil_prefix hbelow
  | cons step rest ih =>
    obtain ⟨child, hstep, hrest⟩ := bind_eq_ok.mp h
    cases other with
    | nil => exact absurd List.nil_prefix habove
    | cons first other =>
      rw [put_cons hstep, descend, descend, step_replaceChild hstep]
      by_cases heq : first = step
      · -- The paths part further down.
        subst heq
        have habove' : ¬ other <+: rest := fun hpre =>
          habove (List.cons_prefix_cons.mpr ⟨rfl, hpre⟩)
        have hbelow' : ¬ rest <+: other := fun hpre =>
          hbelow (List.cons_prefix_cons.mpr ⟨rfl, hpre⟩)
        rw [if_pos rfl, hstep, ok_bind, ok_bind]
        exact ih hrest habove' hbelow'
      · rw [if_neg heq]

/-- A document in which the node at the end of a path was overwritten, next to what it was. -/
structure Overwritten (before after : Node) (path : Path) (new : Node) : Prop where
  /-- What was written is found at the place. -/
  there : after.descend path = .ok new
  /-- Paths to other places give what they gave before. -/
  elsewhere : ∀ other, ¬ other <+: path → ¬ path <+: other →
    after.descend other = before.descend other
  /-- Every node on the way has one child replaced and its properties in the order in which they
  were. -/
  above : ∀ above step rest, path = above ++ step :: rest → ∃ old child,
    before.descend above = .ok old ∧ after.descend above = .ok (old.replaceChild step child) ∧
      Table.keys (old.replaceChild step child).properties = Table.keys old.properties

/-- Putting a node at the end of a path overwrites what was there. -/
theorem overwritten_put (h : node.descend path = .ok found) (new : Node) :
    Overwritten node (node.put path new) path new where
  there := descend_put h new
  elsewhere _ habove hbelow := descend_put_other h new habove hbelow
  above above step rest hpath := by
    subst hpath
    obtain ⟨old, child, hold, hstep, hput⟩ := descend_put_above h new
    exact ⟨old, child.put rest new, hold, hput, keys_replaceChild hstep _⟩

/-- The walk that writes opens the node that the walk that reads finds and is refused where that one
is, for the same reason. Whatever is written to an opened place overwrites the node there and no
other. -/
theorem openAt_addresses (root : Node) (path : Path) :
    (root.openAt path).map Focus.here = root.descend path ∧
      ∀ place, root.openAt path = .ok place →
        ∀ new, Overwritten root (place.fill new) path new := by
  rw [openAt_eq]
  cases hfound : root.descend path with
  | error reason => exact ⟨rfl, nofun⟩
  | ok found =>
    refine ⟨rfl, fun place hplace new => ?_⟩
    cases hplace
    exact overwritten_put hfound new

/-- A document with a node below a slot of every kind. -/
def nested : Node :=
  let items := Property.list [.bare "F", .mk "G" [("head", .child (.bare "H"))]]
  let member := .mk "D" [("mark", .value (.boolean true)),
    ("extra", .optional true (some (.mk "E" [("items", items)])))]
  .mk "Root" [("body", .blockList [.plain [.bare "C", member], .plain [.bare "X"]]),
    ("title", .value (.text "one"))]

/-- The path of the node below the slots of every kind. -/
def innermost : Path :=
  [⟨"body", .member 0 1⟩, ⟨"extra", .optional⟩, ⟨"items", .list 1⟩, ⟨"head", .placeholder⟩]

/-- On a path through a slot of every kind the node at the end is opened and can be overwritten. -/
theorem openAt_addresses_nested : ∃ place, nested.openAt innermost = .ok place ∧
    place.here = .bare "H" ∧
      Overwritten nested (place.fill (.bare "Y")) innermost (.bare "Y") :=
  ⟨_, rfl, rfl, (openAt_addresses nested innermost).2 _ rfl _⟩

end Node

end TreeEditor
