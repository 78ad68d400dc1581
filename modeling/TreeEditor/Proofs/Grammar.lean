import TreeEditor.Proofs.Same
import TreeEditor.Grammar.Validity

/-!
# Laws of grammars

`Grammar.branch?` is the property with children that a node has under a name by a grammar. It takes
the place of the list that `Grammar.browse` gives wherever the order does not matter: it is found
under the name on the node itself (`Grammar.branch?_eq_some`), setting a property of the node
changes it under that name alone (`Grammar.branch?_set`), and nodes that are the same have
corresponding ones (`Grammar.branch?_same`).

Validity is stated with it as well (`Grammar.valid_iff`): every node that takes part has the shape
that the grammar asks for, no block is empty, and every child is admitted where it stands. So nodes
that are the same are valid alike (`Grammar.valid_same`), and a valid node stays valid when a
fitting property takes the place of one of its kind (`Grammar.Valid.set`).
-/

namespace TreeEditor.Grammar

/-- The schema names no property twice for one kind of node. -/
def Distinct : Grammar → Prop
  | free => True
  | declared schema => ∀ kind declarations, schema.declarations kind = .ok declarations →
    (declarations.map Declaration.name).Nodup

/-- The schema names no property with children twice for one kind of node. -/
def DistinctBranches : Grammar → Prop
  | free => True
  | declared schema => ∀ kind declarations, schema.declarations kind = .ok declarations →
    ((declarations.filter (·.kind.bearsChildren)).map Declaration.name).Nodup

/-- A schema that names no property twice names none with children twice. -/
theorem Distinct.branches {grammar : Grammar} (h : grammar.Distinct) :
    grammar.DistinctBranches := by
  cases grammar with
  | free => trivial
  | declared schema =>
    exact fun kind declarations hdeclared =>
      (h kind declarations hdeclared).sublist (List.filter_sublist.map Declaration.name)

/-- The grammar passes over no property of that name. -/
def Declares (kind name : String) : Grammar → Prop
  | free => True
  | declared schema => ∃ declarations, schema.declarations kind = .ok declarations ∧
    name ∈ declarations.map Declaration.name

section Browse

variable {grammar : Grammar} {kind : String} {α β : Type} {properties : List (String × Property α)}

/-- A declared property is found when the node has one of the declared name and kind. -/
theorem declaredProperty_eq_ok {declaration : Declaration} {entry : String × Property α} :
    declaredProperty kind properties declaration = .ok entry ↔
      entry.1 = declaration.name ∧ Table.get? declaration.name properties = some entry.2 ∧
        entry.2.kind = declaration.kind := by
  obtain ⟨name, property⟩ := entry
  unfold declaredProperty
  split
  · rename_i hnone
    simp [hnone]
  · rename_i found hfound
    rw [hfound]
    split
    · rename_i hkind
      simp only [Except.ok.injEq, Prod.mk.injEq, Option.some.injEq, eq_comm (a := name)]
      constructor
      · rintro ⟨rfl, rfl⟩
        exact ⟨rfl, rfl, hkind⟩
      · rintro ⟨rfl, rfl, -⟩
        exact ⟨rfl, rfl⟩
    · rename_i hkind
      simp only [reduceCtorEq, Option.some.injEq, false_iff]
      rintro ⟨-, rfl, h⟩
      exact hkind h

/-- What a declared grammar finds, each property with its declaration. -/
theorem browse_declared_eq_ok {schema : Schema} {branches : List (String × Property α)} :
    (declared schema).browse kind properties = .ok branches ↔
      ∃ declarations found, schema.declarations kind = .ok declarations ∧
        List.Forall₂ (fun declaration entry =>
          declaredProperty kind properties declaration = .ok entry) declarations found ∧
        branches = found.filter fun entry => entry.2.kind.bearsChildren := by
  simp only [browse, bind_eq_ok, pure_eq_ok, Except.ok.injEq, mapM_eq_ok]
  constructor
  · rintro ⟨declarations, hdeclared, found, hfound, rfl⟩
    exact ⟨declarations, found, hdeclared, hfound, rfl⟩
  · rintro ⟨declarations, found, hdeclared, hfound, rfl⟩
    exact ⟨declarations, hdeclared, found, hfound, rfl⟩

/-- The grammar looks at the kinds of properties only: properties that are changed without changing
their kinds are found alike. -/
theorem browse_map {g : String × Property α → String × Property β}
    {properties' : List (String × Property β)}
    (hproperties : properties' = properties.map g) (hname : ∀ e, (g e).1 = e.1)
    (hkind : ∀ e ∈ properties, (g e).2.kind = e.2.kind)
    (hget : ∀ name, Table.get? name properties' =
      (Table.get? name properties).map fun property => (g (name, property)).2) :
    grammar.browse kind properties' = (grammar.browse kind properties).map (List.map g) := by
  -- What bears children is told from the kind, so the filter commutes with the change.
  have hfilter : ∀ found : List (String × Property α), (∀ e ∈ found, e ∈ properties) →
      (found.map g).filter (fun entry => entry.2.kind.bearsChildren) =
        (found.filter fun entry => entry.2.kind.bearsChildren).map g := by
    intro found hsub
    rw [List.filter_map]
    congr 1
    refine List.filter_congr fun e he => ?_
    rw [Function.comp_apply, hkind e (hsub e he)]
  cases grammar with
  | free =>
    simp only [browse, hproperties]
    rw [hfilter properties fun _ h => h]
    rfl
  | declared schema =>
    -- A declared property is looked up by its name and checked by its kind; neither is changed.
    have hdeclared : ∀ declaration, declaredProperty kind properties' declaration =
        (declaredProperty kind properties declaration).map g := by
      intro declaration
      unfold declaredProperty
      rw [hget]
      cases hfound : Table.get? declaration.name properties with
      | none => rfl
      | some property =>
        have hsame := hkind _ (Table.mem_of_get? hfound)
        simp only [Option.map_some, hsame]
        split
        · have : g (declaration.name, property) =
              (declaration.name, (g (declaration.name, property)).2) :=
            Prod.ext (hname _) rfl
          rw [← this]
          rfl
        · rfl
    simp only [browse]
    cases schema.declarations kind with
    | error fault => rfl
    | ok declarations =>
      simp only [ok_bind]
      rw [mapM_map_ok hdeclared]
      cases hfound : declarations.mapM (declaredProperty kind properties) with
      | error fault => rfl
      | ok found =>
        have hsub : ∀ e ∈ found, e ∈ properties := by
          intro e he
          obtain ⟨i, hi⟩ := List.mem_iff_getElem?.mp he
          have hrel := rel_getElem? (mapM_eq_ok.mp hfound) i
          rw [hi, rel_some_right] at hrel
          obtain ⟨d, -, hd⟩ := hrel
          have hfacts := declaredProperty_eq_ok.mp hd
          have hmem := Table.mem_of_get? hfacts.2.1
          rwa [← hfacts.1] at hmem
        exact congrArg Except.ok (hfilter found hsub)

/-- The properties of a node whose children are replaced are the replaced ones. -/
theorem browse_map_children (f : α → β) (properties : List (String × Property α)) :
    grammar.browse kind (properties.map fun e => (e.1, e.2.map f)) =
      (grammar.browse kind properties).map (List.map fun e => (e.1, e.2.map f)) :=
  browse_map rfl (fun _ => rfl) (fun _ _ => Property.kind_map _ _) fun name => by
    rw [Table.get?_map]

/-- What a grammar finds are properties with children under names that it declares. -/
theorem mem_browse {branches : List (String × Property α)} (hkeys : (Table.keys properties).Nodup)
    (h : grammar.browse kind properties = .ok branches) {name : String} {property : Property α} :
    (name, property) ∈ branches ↔ Table.get? name properties = some property ∧
      property.kind.bearsChildren ∧ grammar.Declares kind name := by
  cases grammar with
  | free =>
    cases h
    rw [List.mem_filter, Table.mem_iff_get? hkeys]
    simp [Declares]
  | declared schema =>
    obtain ⟨declarations, found, hdeclared, hfound, rfl⟩ := browse_declared_eq_ok.mp h
    simp only [List.mem_filter]
    constructor
    · rintro ⟨hmem, hbears⟩
      obtain ⟨i, hi⟩ := List.mem_iff_getElem?.mp hmem
      have hrel := rel_getElem? hfound i
      rw [hi, rel_some_right] at hrel
      obtain ⟨declaration, hdeclaration, hd⟩ := hrel
      obtain ⟨hname, hget, -⟩ := declaredProperty_eq_ok.mp hd
      simp only at hname
      refine ⟨by rw [hname]; exact hget, hbears, declarations, hdeclared, ?_⟩
      rw [hname]
      exact List.mem_map_of_mem (List.mem_of_getElem? hdeclaration)
    · rintro ⟨hget, hbears, declarations', hdeclared', hname⟩
      rw [hdeclared] at hdeclared'
      cases hdeclared'
      obtain ⟨declaration, hmem, rfl⟩ := List.mem_map.mp hname
      obtain ⟨i, hi⟩ := List.mem_iff_getElem?.mp hmem
      have hrel := rel_getElem? hfound i
      rw [hi, rel_some_left] at hrel
      obtain ⟨⟨name, other⟩, hentry, hd⟩ := hrel
      obtain ⟨rfl, hget', -⟩ := declaredProperty_eq_ok.mp hd
      rw [hget] at hget'
      cases hget'
      exact ⟨List.mem_of_getElem? hentry, hbears⟩

/-- What a grammar without repetitions finds stands under different names. -/
theorem nodup_browse {branches : List (String × Property α)} (hgrammar : grammar.DistinctBranches)
    (hkeys : (Table.keys properties).Nodup) (h : grammar.browse kind properties = .ok branches) :
    (Table.keys branches).Nodup := by
  cases grammar with
  | free =>
    cases h
    exact hkeys.sublist (List.filter_sublist.map Prod.fst)
  | declared schema =>
    obtain ⟨declarations, found, hdeclared, hfound, rfl⟩ := browse_declared_eq_ok.mp h
    -- What is found for a declaration is of its name and of its kind.
    have hnames : Table.keys (found.filter fun entry => entry.2.kind.bearsChildren) =
        (declarations.filter (·.kind.bearsChildren)).map Declaration.name := by
      clear hdeclared h
      induction hfound with
      | nil => rfl
      | @cons declaration entry _ _ hd _ ih =>
        obtain ⟨hname, -, hkind⟩ := declaredProperty_eq_ok.mp hd
        unfold Table.keys at ih ⊢
        rw [List.filter_cons, List.filter_cons, hkind]
        split
        · rw [List.map_cons, List.map_cons, hname, ih]
        · exact ih
    rw [hnames]
    exact hgrammar kind declarations hdeclared

end Browse

section Branch

variable {grammar : Grammar} {node : Node} {name : String} {P : Property Node}

/-- The properties with children of a node, in the order of the grammar. -/
abbrev branches (grammar : Grammar) (node : Node) :
    Except ShapeError (List (String × Property Node)) :=
  grammar.browse node.kind node.properties

/-- The property with children that a node has under a name by a grammar. -/
def branch? (grammar : Grammar) (node : Node) (name : String) : Option (Property Node) :=
  (grammar.branches node).toOption.bind (Table.get? name)

/-- A property with children is found under its name on the node. -/
theorem branch?_eq_some (hkeys : (Table.keys node.properties).Nodup) :
    grammar.branch? node name = some P ↔ (∃ found, grammar.branches node = .ok found) ∧
      node.property? name = some P ∧ P.kind.bearsChildren ∧
        grammar.Declares node.kind name := by
  unfold branch?
  cases hfound : grammar.branches node with
  | error fault => simp
  | ok found =>
    simp only [toOption_ok, Option.bind_some, Except.ok.injEq, exists_eq', true_and]
    unfold Node.property?
    rw [← mem_browse hkeys hfound]
    refine ⟨Table.mem_of_get?, fun hmem => ?_⟩
    have hsome : Table.get? name found ≠ none := fun hnone =>
      Table.get?_eq_none_iff.mp hnone (List.mem_map_of_mem hmem)
    obtain ⟨other, hother⟩ := Option.ne_none_iff_exists'.mp hsome
    have hget := ((mem_browse hkeys hfound).mp (Table.mem_of_get? hother)).1
    rw [((mem_browse hkeys hfound).mp hmem).1] at hget
    cases hget
    exact hother

/-- The properties with children of a well-formed node, in order, are those under the names. -/
theorem mem_branches (hkeys : (Table.keys node.properties).Nodup)
    {found : List (String × Property Node)} (h : grammar.branches node = .ok found) :
    (name, P) ∈ found ↔ grammar.branch? node name = some P := by
  rw [mem_browse hkeys h, branch?_eq_some hkeys]
  simp [h, Node.property?]

/-- A property with children is a property. -/
theorem property?_of_branch? (hkeys : (Table.keys node.properties).Nodup)
    (h : grammar.branch? node name = some P) : node.property? name = some P :=
  ((branch?_eq_some hkeys).mp h).2.1

/-- Setting a property to another one of its kind sets it among the properties with children. -/
theorem branches_set {P' : Property Node} (hkeys : (Table.keys node.properties).Nodup)
    (hP : node.property? name = some P) (hkind : P'.kind = P.kind) :
    grammar.branches (node.set name P') =
      (grammar.branches node).map (List.map (Table.overwrite name P')) := by
  have hmem : name ∈ Table.keys node.properties := by
    by_contra hnone
    rw [Node.property?, Table.get?_eq_none_iff.mpr hnone] at hP
    cases hP
  refine browse_map (Table.set_eq_map_overwrite hkeys hmem P') (Table.overwrite_fst name P')
    (fun e he => ?_) fun other => ?_
  · unfold Table.overwrite
    split
    · rename_i heq
      have hget := (Table.mem_iff_get? hkeys).mp he
      rw [heq] at hget
      rw [Node.property?, hget] at hP
      cases hP
      exact hkind
    · rfl
  · rw [Node.properties_set, Table.get?_set]
    unfold Table.overwrite
    by_cases heq : other = name
    · subst heq
      rw [Node.property?] at hP
      simp [hP]
    · simp [heq]

/-- Setting a property to another one of its kind changes the property with children of that name
alone. -/
theorem branch?_set {P' : Property Node} (hkeys : (Table.keys node.properties).Nodup)
    (hP : node.property? name = some P) (hkind : P'.kind = P.kind) (other : String) :
    grammar.branch? (node.set name P') other =
      if other = name then (grammar.branch? node name).map fun _ => P'
      else grammar.branch? node other := by
  unfold branch?
  rw [branches_set hkeys hP hkind]
  cases grammar.branches node with
  | error fault => simp [Except.map]
  | ok found => exact Table.get?_map_overwrite name other P' found

/-- Nodes that are the same have properties with children or not alike. -/
theorem branches_same {other : Node} (hnode : node.WellFormed) (hother : other.WellFormed)
    (h : node.Same other) {found : List (String × Property Node)}
    (hfound : grammar.branches node = .ok found) :
    ∃ found', grammar.branches other = .ok found' := by
  obtain ⟨hkind, hrel⟩ := (Node.same_iff hnode.keys hother.keys).mp h
  cases grammar with
  | free => exact ⟨_, rfl⟩
  | declared schema =>
    obtain ⟨declarations, entries, hdeclared, hentries, rfl⟩ := browse_declared_eq_ok.mp hfound
    obtain ⟨entries', hentries'⟩ : ∃ entries', List.Forall₂ (fun declaration entry =>
        declaredProperty other.kind other.properties declaration = .ok entry)
        declarations entries' := by
      clear hfound hdeclared
      -- By induction on the declarations: each is met by the property of the other node under its
      -- name.
      induction hentries with
      | nil => exact ⟨[], .nil⟩
      | @cons declaration entry _ _ hd _ ih =>
        obtain ⟨entries', hentries'⟩ := ih
        obtain ⟨hname, hget, hkind'⟩ := declaredProperty_eq_ok.mp hd
        have hproperty := hrel declaration.name
        rw [Node.property?, hget, rel_some_left] at hproperty
        obtain ⟨Q, hQ, hPQ⟩ := hproperty
        refine ⟨(declaration.name, Q) :: entries', .cons ?_ hentries'⟩
        exact declaredProperty_eq_ok.mpr ⟨rfl, hQ, hPQ.kind_eq ▸ hkind'⟩
    rw [hkind] at hdeclared
    exact ⟨_, browse_declared_eq_ok.mpr ⟨declarations, entries', hdeclared, hentries', rfl⟩⟩

/-- Nodes that are the same have corresponding properties with children. -/
theorem branch?_same {other : Node} (hnode : node.WellFormed) (hother : other.WellFormed)
    (h : node.Same other) {Q : Property Node} (hQ : grammar.branch? other name = some Q) :
    ∃ P, grammar.branch? node name = some P ∧ P.Corresponds Node.Same Q := by
  obtain ⟨hkind, hrel⟩ := (Node.same_iff hnode.keys hother.keys).mp h
  obtain ⟨⟨found, hfound⟩, hget, hbears, hdeclares⟩ := (branch?_eq_some hother.keys).mp hQ
  have hname := hrel name
  rw [hget, rel_some_right] at hname
  obtain ⟨P, hP, hPQ⟩ := hname
  refine ⟨P, (branch?_eq_some hnode.keys).mpr ⟨?_, hP, ?_, ?_⟩, hPQ⟩
  · exact branches_same hother hnode (Node.same_symm hnode hother h) hfound
  · rw [hPQ.kind_eq]
    exact hbears
  · rw [hkind]
    exact hdeclares

end Branch

/-! ## Validity -/

section Valid

variable {grammar : Grammar} {node : Node}

/-- A document is valid. -/
def Valid (grammar : Grammar) (node : Node) : Prop := grammar.validate node = .ok ()

/-- A valid node of a kind that is accepted under a property of nodes of a kind. -/
structure Admits (grammar : Grammar) (kind name : String) (child : Node) : Prop where
  accepted : grammar.accepts kind name child.kind = .ok ()
  valid : grammar.Valid child

/-- No block of a property is empty and all its children are admitted. -/
structure Fits (grammar : Grammar) (kind name : String) (property : Property Node) : Prop where
  populated : property.Populated
  admits : ∀ slot child, property.childAt? slot = some child → grammar.Admits kind name child

/-- The check of the children of a property passes exactly when all are admitted. -/
theorem checkChildren_eq_ok {kind name : String} {property : Property Node} :
    grammar.checkChildren kind name
        (property.map (Node.withResult fun kind properties => do
          (← grammar.browse kind properties).forM fun (name, property) => do
            property.checkBlocks kind name
            grammar.checkChildren kind name property.children)).children = .ok () ↔
      ∀ slot child, property.childAt? slot = some child → grammar.Admits kind name child := by
  unfold checkChildren
  rw [forM_eq_ok]
  constructor
  · intro h slot child hchild
    have hstep := h (slot, child, grammar.validate child) (Property.mem_children.mpr (by
      rw [Property.childAt?_map, hchild]
      rfl))
    obtain ⟨_, haccepted, hvalid⟩ := bind_eq_ok.mp hstep
    exact ⟨haccepted, hvalid⟩
  · rintro h ⟨slot, child, verdict⟩ hmem
    have hslot := Property.mem_children.mp hmem
    rw [Property.childAt?_map] at hslot
    obtain ⟨child', hchild, heq⟩ := Option.map_eq_some_iff.mp hslot
    cases heq
    have hadmits := h slot child hchild
    exact bind_eq_ok.mpr ⟨(), hadmits.accepted, hadmits.valid⟩

/-- A node is valid when it has the shape that the grammar asks for and its properties with children
fit. -/
theorem valid_iff_branches : grammar.Valid node ↔
    ∃ found, grammar.branches node = .ok found ∧
      ∀ entry ∈ found, grammar.Fits node.kind entry.1 entry.2 := by
  obtain ⟨kind, properties⟩ := node
  unfold Valid validate
  rw [Node.fold_mk, browse_map_children, bind_eq_ok]
  simp only [branches, Node.kind_mk, Node.properties_mk]
  cases grammar.browse kind properties with
  | error fault => simp [Except.map]
  | ok found =>
    simp only [Except.map, Except.ok.injEq, exists_eq_left']
    rw [forM_eq_ok, List.forall_mem_map]
    refine forall₂_congr fun entry _ => ?_
    rw [bind_eq_ok]
    constructor
    · rintro ⟨_, hblocks, hchildren⟩
      exact ⟨(Property.populated_map _).mp (Property.checkBlocks_eq_ok.mp hblocks),
        checkChildren_eq_ok.mp hchildren⟩
    · rintro ⟨hpopulated, hadmits⟩
      exact ⟨(), Property.checkBlocks_eq_ok.mpr ((Property.populated_map _).mpr hpopulated),
        checkChildren_eq_ok.mpr hadmits⟩

/-- A node is valid when it has the shape that the grammar asks for and what it has under each name
fits. -/
theorem valid_iff (hkeys : (Table.keys node.properties).Nodup) : grammar.Valid node ↔
    (∃ found, grammar.branches node = .ok found) ∧
      ∀ name P, grammar.branch? node name = some P → grammar.Fits node.kind name P := by
  rw [valid_iff_branches]
  constructor
  · rintro ⟨found, hfound, hfits⟩
    exact ⟨⟨found, hfound⟩, fun name P hP => hfits _ ((mem_branches hkeys hfound).mpr hP)⟩
  · rintro ⟨⟨found, hfound⟩, hfits⟩
    exact ⟨found, hfound, fun entry hentry =>
      hfits _ _ ((mem_branches hkeys hfound).mp hentry)⟩

/-- What a valid node has under a name fits. -/
theorem Valid.fits (h : grammar.Valid node) (hkeys : (Table.keys node.properties).Nodup)
    {name : String} {P : Property Node} (hP : grammar.branch? node name = some P) :
    grammar.Fits node.kind name P := ((valid_iff hkeys).mp h).2 name P hP

/-- A valid node has the shape that the grammar asks for. -/
theorem Valid.branches (h : grammar.Valid node) :
    ∃ found, grammar.branches node = .ok found := by
  obtain ⟨found, hfound, -⟩ := valid_iff_branches.mp h
  exact ⟨found, hfound⟩

/-- A node still fits when a fitting property takes the place of one of its kind. -/
theorem Valid.set (h : grammar.Valid node) (hnode : node.WellFormed) {name : String}
    {P P' : Property Node} (hP : node.property? name = some P) (hkind : P'.kind = P.kind)
    (hfits : grammar.branch? node name = some P → grammar.Fits node.kind name P')
    (hbelow : ∀ child ∈ P'.nodes, child.WellFormed) : grammar.Valid (node.set name P') := by
  obtain ⟨⟨found, hfound⟩, hall⟩ := (valid_iff hnode.keys).mp h
  refine (valid_iff (hnode.set hbelow).keys).mpr ⟨?_, fun other Q hQ => ?_⟩
  · rw [branches_set hnode.keys hP hkind, hfound]
    exact ⟨_, rfl⟩
  · rw [branch?_set hnode.keys hP hkind] at hQ
    split at hQ
    · rename_i heq
      obtain ⟨P'', hP'', rfl⟩ := Option.map_eq_some_iff.mp hQ
      have hsame := property?_of_branch? hnode.keys hP''
      rw [hP] at hsame
      cases hsame
      rw [heq]
      exact hfits hP''
    · exact hall other Q hQ

/-- Documents that are the same are valid alike. -/
theorem valid_same {a b : Node} (ha : a.WellFormed) (hb : b.WellFormed) (h : a.Same b)
    (hvalid : grammar.Valid b) : grammar.Valid a := by
  -- By induction on the valid node: what its slots admit is said of the other one by the same
  -- slots.
  induction b using Node.induct generalizing a with
  | step b ih =>
    obtain ⟨⟨found, hfound⟩, hfits⟩ := (valid_iff hb.keys).mp hvalid
    refine (valid_iff ha.keys).mpr ⟨?_, fun name P hP => ?_⟩
    · exact branches_same hb ha (Node.same_symm ha hb h) hfound
    · obtain ⟨Q, hQ, hQP⟩ := branch?_same hb ha (Node.same_symm ha hb h) hP
      have hfitsQ := hfits name Q hQ
      have hP' := property?_of_branch? ha.keys hP
      have hQ' := property?_of_branch? hb.keys hQ
      refine ⟨hQP.flip.populated hfitsQ.populated, fun slot child hchild => ?_⟩
      have hrel := hQP.childAt? slot
      rw [hchild, rel_some_right] at hrel
      obtain ⟨other, hother, hsame⟩ := hrel
      have hadmits := hfitsQ.admits slot other hother
      have hmem := Property.mem_nodes_of_childAt? hother
      have hwf := hb.property hQ' hmem
      have hwf' := ha.property hP' (Property.mem_nodes_of_childAt? hchild)
      have hsame' := Node.same_symm hwf hwf' hsame
      refine ⟨?_, ih _ (Table.mem_of_get? hQ') other hmem hwf' hwf hsame' hadmits.valid⟩
      rw [h.kind_eq, hsame'.kind_eq]
      exact hadmits.accepted

/-- Nodes that are the same are admitted alike. -/
theorem Admits.same {kind name : String} {a b : Node} (h : grammar.Admits kind name b)
    (ha : a.WellFormed) (hb : b.WellFormed) (hab : a.Same b) : grammar.Admits kind name a :=
  ⟨by rw [hab.kind_eq]; exact h.accepted, valid_same ha hb hab h.valid⟩

end Valid

end TreeEditor.Grammar
