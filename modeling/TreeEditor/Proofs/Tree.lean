import TreeEditor.Proofs.Table
import TreeEditor.Node.Basic

/-!
# Induction over documents

What holds of a node whenever it holds of all nodes under its properties holds of every node
(`Node.induct`). Retained items, patterns and sources are among the nodes under a property.

A condition on single nodes can be asked of a whole document (`Node.Everywhere`). Two such
conditions run through the theory. In a well-formed document no node has two properties of one
name: this is what a table of properties built by `Table.set` has. In a filled document every
optional child that is assigned has an item. Both survive a change of one property when they hold
of the nodes under the new one (`Node.Everywhere.set`).
-/

namespace TreeEditor

namespace Property

variable {α β : Type}

/-- Replacing the children of a property keeps its kind. -/
@[simp]
theorem kind_map (f : α → β) (property : Property α) : (property.map f).kind = property.kind := by
  cases property <;> rfl

/-- The nodes under a property whose children are replaced are the replaced ones. -/
theorem nodes_map (f : α → β) (property : Property α) :
    (property.map f).nodes = property.nodes.map f := by
  cases property with
  | value leaf => rfl
  | child node => rfl
  | optional assigned item => cases item <;> rfl
  | list nodes => rfl
  | blockList blocks =>
    simp only [map, nodes, List.flatMap_map, List.map_flatMap]
    rfl

/-- Replacing children twice is replacing them once. -/
theorem map_map {γ : Type} (f : α → β) (g : β → γ) (property : Property α) :
    (property.map f).map g = property.map (g ∘ f) := by
  cases property with
  | value leaf => rfl
  | child node => rfl
  | optional assigned item => simp [map]
  | list nodes => simp [map]
  | blockList blocks =>
    simp only [map, List.map_map]
    congr 1
    apply List.map_congr_left
    intro block _
    simp [Block.map, Header.map]

/-- Replacing every child by itself changes nothing. -/
theorem map_id (property : Property α) : property.map id = property := by
  have hblock : Block.map (id : α → α) = id := by
    funext block
    simp [Block.map, Header.map]
  cases property <;> simp [map, hblock]

end Property

namespace Node

@[simp]
theorem kind_mk (kind : String) (properties : List (String × Property Node)) :
    (mk kind properties).kind = kind := rfl

@[simp]
theorem properties_mk (kind : String) (properties : List (String × Property Node)) :
    (mk kind properties).properties = properties := rfl

@[simp]
theorem kind_set (node : Node) (name : String) (property : Property Node) :
    (node.set name property).kind = node.kind := rfl

@[simp]
theorem properties_set (node : Node) (name : String) (property : Property Node) :
    (node.set name property).properties = Table.set name property node.properties := rfl

/-- A node is its kind and its properties. -/
theorem mk_kind_properties (node : Node) : mk node.kind node.properties = node := by
  cases node
  rfl

/-- A property is larger than the nodes under it. -/
theorem sizeOf_lt_property {property : Property Node} {child : Node}
    (h : child ∈ property.nodes) : sizeOf child < sizeOf property := by
  cases property with
  | value leaf => cases h
  | child node =>
    rw [List.mem_singleton.mp h, Property.child.sizeOf_spec]
    omega
  | optional assigned item =>
    rw [Option.mem_toList.mp h, Property.optional.sizeOf_spec, Option.some.sizeOf_spec]
    omega
  | list nodes =>
    have hlt : sizeOf child < sizeOf nodes := List.sizeOf_lt_of_mem h
    rw [Property.list.sizeOf_spec]
    omega
  | blockList blocks =>
    obtain ⟨⟨⟨replication, pattern, source⟩, members⟩, hblock, hnode⟩ := List.mem_flatMap.mp h
    have hlt := List.sizeOf_lt_of_mem hblock
    rw [Block.mk.sizeOf_spec, Header.mk.sizeOf_spec] at hlt
    rw [Property.blockList.sizeOf_spec]
    rcases List.mem_cons.mp hnode with rfl | hnode
    · omega
    · rcases List.mem_cons.mp hnode with rfl | hmember
      · omega
      · have hmem : sizeOf child < sizeOf members := List.sizeOf_lt_of_mem hmember
        omega

/-- A node is larger than the nodes under its properties. -/
theorem sizeOf_lt {node child : Node} {entry : String × Property Node}
    (hentry : entry ∈ node.properties) (hchild : child ∈ entry.2.nodes) :
    sizeOf child < sizeOf node := by
  obtain ⟨kind, properties⟩ := node
  obtain ⟨name, property⟩ := entry
  have hlt := List.sizeOf_lt_of_mem hentry
  have hchild : sizeOf child < sizeOf property := sizeOf_lt_property hchild
  rw [properties_mk, Prod.mk.sizeOf_spec] at hlt
  rw [Node.mk.sizeOf_spec]
  omega

/-- What holds of a node whenever it holds of all nodes under its properties holds of every
node. -/
theorem induct {motive : Node → Prop}
    (step : ∀ node : Node, (∀ entry ∈ node.properties, ∀ child ∈ entry.2.nodes, motive child) →
      motive node) (node : Node) : motive node :=
  step node fun entry hentry child hchild =>
    have := sizeOf_lt hentry hchild
    induct step child
termination_by sizeOf node

/-! ## Conditions on whole documents -/

/-- A condition holds of a node and of every node below it. -/
inductive Everywhere (p : Node → Prop) : Node → Prop where
  | intro {node : Node} (here : p node)
    (below : ∀ entry ∈ node.properties, ∀ child ∈ entry.2.nodes, Everywhere p child) :
    Everywhere p node

namespace Everywhere

variable {p : Node → Prop} {node : Node}

/-- A condition that holds everywhere holds of the node. -/
theorem here (h : node.Everywhere p) : p node := by
  cases h with
  | intro here _ => exact here

/-- A condition that holds everywhere holds everywhere below. -/
theorem child (h : node.Everywhere p) {entry : String × Property Node}
    (hentry : entry ∈ node.properties) {child : Node} (hchild : child ∈ entry.2.nodes) :
    child.Everywhere p := by
  cases h with
  | intro _ below => exact below entry hentry child hchild

/-- A condition that holds everywhere holds everywhere below a property. -/
theorem property (h : node.Everywhere p) {name : String} {property : Property Node}
    (hproperty : node.property? name = some property) {child : Node}
    (hchild : child ∈ property.nodes) : child.Everywhere p :=
  h.child (Table.mem_of_get? hproperty) hchild

/-- A condition still holds everywhere when a property is set, if it holds of the node as it is then
and everywhere below the new property. -/
theorem set (h : node.Everywhere p) {name : String} {property : Property Node}
    (here : p (node.set name property)) (below : ∀ child ∈ property.nodes, child.Everywhere p) :
    (node.set name property).Everywhere p := by
  refine .intro here fun entry hentry => ?_
  rcases Table.mem_set hentry with heq | hold
  · rw [heq]
    exact below
  · exact fun child hchild => h.child hold hchild

end Everywhere

/-- Whether a condition holds of a node and of every node below it. -/
def everywhere (p : Node → Prop) [DecidablePred p] (node : Node) : Bool :=
  node.fold fun kind properties =>
    decide (p (mk kind (properties.map fun entry => (entry.1, entry.2.map Prod.fst)))) &&
      (results properties).all id

/-- A condition that can be decided of single nodes can be decided of whole documents. -/
theorem everywhere_eq_true {p : Node → Prop} [DecidablePred p] {node : Node} :
    node.everywhere p = true ↔ node.Everywhere p := by
  induction node using induct with
  | step node ih =>
    obtain ⟨kind, properties⟩ := node
    -- The fold hands each child back with its verdict; the document itself is unchanged by it.
    have hsame : (properties.map fun entry => (entry.1, entry.2.map
        (withResult fun kind properties => decide (p (mk kind (properties.map fun entry =>
          (entry.1, entry.2.map Prod.fst)))) && (results properties).all id))).map
            (fun entry => (entry.1, entry.2.map Prod.fst)) = properties := by
      rw [List.map_map]
      refine List.map_id'' (fun entry => ?_) properties
      dsimp only [Function.comp_apply]
      rw [Property.map_map]
      exact congrArg (Prod.mk entry.1) (Property.map_id entry.2)
    rw [everywhere, fold_mk, hsame, Bool.and_eq_true, decide_eq_true_iff, List.all_eq_true]
    constructor
    · rintro ⟨here, below⟩
      refine .intro here fun entry hentry child hchild => (ih entry hentry child hchild).mp ?_
      refine below _ (List.mem_flatMap.mpr ⟨_, List.mem_map_of_mem hentry, ?_⟩)
      rw [Property.nodes_map, List.map_map]
      exact List.mem_map.mpr ⟨child, hchild, rfl⟩
    · refine fun h => ⟨h.here, fun verdict hverdict => ?_⟩
      obtain ⟨_, hmem, hverdict⟩ := List.mem_flatMap.mp hverdict
      obtain ⟨entry, hentry, rfl⟩ := List.mem_map.mp hmem
      rw [Property.nodes_map, List.map_map] at hverdict
      obtain ⟨child, hchild, rfl⟩ := List.mem_map.mp hverdict
      exact (ih entry hentry child hchild).mpr (h.child hentry hchild)

instance (p : Node → Prop) [DecidablePred p] : DecidablePred (Everywhere p) := fun _ =>
  decidable_of_iff _ everywhere_eq_true

/-- No node of a document has two properties of one name. -/
def WellFormed (node : Node) : Prop :=
  node.Everywhere fun node => (Table.keys node.properties).Nodup

/-- Every optional child of a document that is assigned has an item. -/
def Filled (node : Node) : Prop :=
  node.Everywhere fun node => ∀ entry ∈ node.properties, entry.2 ≠ .optional true none

instance : DecidablePred WellFormed :=
  inferInstanceAs (DecidablePred (Everywhere fun node => (Table.keys node.properties).Nodup))

/-- Whether an optional child that is assigned has no item. -/
instance (property : Property Node) : Decidable (property = .optional true none) :=
  match property with
  | .optional true none => isTrue rfl
  | .optional true (some _) | .optional false _ => isFalse nofun
  | .value _ | .child _ | .list _ | .blockList _ => isFalse nofun

instance : DecidablePred Filled := inferInstanceAs (DecidablePred (Everywhere fun node =>
  ∀ entry ∈ node.properties, entry.2 ≠ .optional true none))

/-- The properties of a well-formed node have different names. -/
theorem WellFormed.keys {node : Node} (h : node.WellFormed) :
    (Table.keys node.properties).Nodup := h.here

/-- A well-formed document stays so when a property is set below which all is well-formed. -/
theorem WellFormed.set {node : Node} (h : node.WellFormed) {name : String}
    {property : Property Node} (below : ∀ child ∈ property.nodes, child.WellFormed) :
    (node.set name property).WellFormed :=
  Everywhere.set h (Table.nodup_keys_set h.keys property) below

/-- A filled document stays so when a filled property is set below which all is filled. -/
theorem Filled.set {node : Node} (h : node.Filled) {name : String} {property : Property Node}
    (hproperty : property ≠ .optional true none)
    (below : ∀ child ∈ property.nodes, child.Filled) : (node.set name property).Filled := by
  refine Everywhere.set h (fun entry hentry => ?_) below
  rcases Table.mem_set hentry with heq | hold
  · rw [heq]
    exact hproperty
  · exact h.here entry hold

/-- A node without properties is well-formed. -/
theorem wellFormed_bare (kind : String) : (bare kind).WellFormed :=
  .intro List.nodup_nil fun _ h => by cases h

end Node

end TreeEditor
