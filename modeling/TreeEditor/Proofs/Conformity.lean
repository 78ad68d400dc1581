import TreeEditor.Proofs.Runs

/-!
# Documents that keep to a schema

A schema says of each kind of node which properties it has, of which kinds, and which kinds of node
may stand under them. A document is valid under it exactly when every node that takes part in the
editing is as its kind is declared (`Schema.valid_iff_describes`), which says without a walk over
the document what `Grammar.validate` checks.

Only what an edit brings in is checked when it is made. Still no sequence of requests makes a
document invalid (`Editor.valid_of_run`): what was checked once stays valid wherever it is put back,
and an item that an optional child retained is checked before it is assigned again.
-/

namespace TreeEditor

/-- A property is as it is declared. -/
structure Declaration.Met (declaration : Declaration) (P : Property Node) : Prop where
  kind : P.kind = declaration.kind
  /-- No block is empty. -/
  populated : P.Populated
  accepts : ∀ slot child, P.childAt? slot = some child →
    declaration.accepts = [] ∨ child.kind ∈ declaration.accepts

/-- A node is of a declared kind and has all properties that the kind is declared with. -/
def Schema.Describes (schema : Schema) (node : Node) : Prop :=
  ∃ declarations, schema.declarations node.kind = .ok declarations ∧
    ∀ declaration ∈ declarations, ∃ P,
      node.property? declaration.name = some P ∧ declaration.Met P

namespace Schema

variable {schema : Schema} {kind : String} {declarations : List Declaration}
  {declaration : Declaration} {node document : Node} {P : Property Node}

/-- Where no name is declared twice a declaration is found by its name. -/
theorem find?_eq_some (hnodup : (declarations.map Declaration.name).Nodup)
    (hmem : declaration ∈ declarations) :
    declarations.find? (·.name = declaration.name) = some declaration := by
  have hsome : (declarations.find? (·.name = declaration.name)).isSome := by
    rw [List.find?_isSome]
    exact ⟨declaration, hmem, by simp⟩
  obtain ⟨found, hfound⟩ := Option.isSome_iff_exists.mp hsome
  have hname : found.name = declaration.name := by simpa using List.find?_some hfound
  have heq : found = declaration :=
    List.inj_on_of_nodup_map hnodup (List.mem_of_find?_eq_some hfound) hmem hname
  rw [hfound, heq]

/-- A child is accepted under a declared property when its kind is listed or none is. -/
theorem accepts_eq_ok (hdistinct : (Grammar.declared schema).Distinct)
    (hdeclared : schema.declarations kind = .ok declarations) (hmem : declaration ∈ declarations)
    (child : String) : (Grammar.declared schema).accepts kind declaration.name child = .ok () ↔
      declaration.accepts = [] ∨ child ∈ declaration.accepts := by
  have hfind := find?_eq_some (hdistinct kind declarations hdeclared) hmem
  unfold Grammar.accepts
  dsimp only
  rw [hdeclared, ok_bind, hfind]
  dsimp only
  split <;> simp_all

/-- A node that has what its kind is declared with can be browsed. -/
theorem Describes.branches (h : schema.Describes node) :
    ∃ found, (Grammar.declared schema).branches node = .ok found := by
  obtain ⟨declarations, hdeclared, hall⟩ := h
  have hfound : ∀ declaration ∈ declarations, ∃ entry,
      Grammar.declaredProperty node.kind node.properties declaration = .ok entry := by
    intro declaration hmem
    obtain ⟨P, hP, hmet⟩ := hall declaration hmem
    exact ⟨(declaration.name, P), Grammar.declaredProperty_eq_ok.mpr ⟨rfl, hP, hmet.kind⟩⟩
  obtain ⟨found, hmapped⟩ : ∃ found, List.Forall₂ (fun declaration entry =>
      Grammar.declaredProperty node.kind node.properties declaration = .ok entry)
      declarations found := by
    clear hdeclared hall
    induction declarations with
    | nil => exact ⟨[], .nil⟩
    | cons declaration rest ih =>
      obtain ⟨entry, hentry⟩ := hfound declaration List.mem_cons_self
      obtain ⟨found, hrest⟩ := ih fun d hd => hfound d (List.mem_cons_of_mem _ hd)
      exact ⟨entry :: found, .cons hentry hrest⟩
  exact ⟨_, Grammar.browse_declared_eq_ok.mpr ⟨declarations, found, hdeclared, hmapped, rfl⟩⟩

/-- A valid node is as its kind is declared. -/
theorem describes_of_valid (hdistinct : (Grammar.declared schema).Distinct)
    (hnode : node.WellFormed) (h : (Grammar.declared schema).Valid node) :
    schema.Describes node := by
  obtain ⟨found, hfound⟩ := h.branches
  obtain ⟨declarations, entries, hdeclared, hentries, -⟩ :=
    Grammar.browse_declared_eq_ok.mp hfound
  refine ⟨declarations, hdeclared, fun declaration hmem => ?_⟩
  obtain ⟨⟨name, P⟩, -, hentry⟩ : ∃ entry ∈ entries,
      Grammar.declaredProperty node.kind node.properties declaration = .ok entry := by
    obtain ⟨i, hi⟩ := List.getElem?_of_mem hmem
    obtain ⟨entry, hat, hentry⟩ := rel_some_left.mp (hi ▸ rel_getElem? hentries i)
    exact ⟨entry, List.mem_of_getElem? hat, hentry⟩
  obtain ⟨-, hP, hkind⟩ := Grammar.declaredProperty_eq_ok.mp hentry
  refine ⟨P, hP, ?_⟩
  -- Values are no branches, so only the other properties are checked by the grammar.
  by_cases hbears : P.kind.bearsChildren = true
  · have hbranch : (Grammar.declared schema).branch? node declaration.name = some P :=
      (Grammar.branch?_eq_some hnode.keys).mpr ⟨⟨found, hfound⟩, hP, hbears, declarations,
        hdeclared, List.mem_map_of_mem hmem⟩
    have hfits := h.fits hnode.keys hbranch
    refine ⟨hkind, hfits.populated, fun slot child hchild => ?_⟩
    exact (accepts_eq_ok hdistinct hdeclared hmem child.kind).mp
      (hfits.admits slot child hchild).accepted
  · -- A value has neither blocks nor children.
    cases P with
    | value leaf => exact ⟨hkind, trivial, fun slot child hchild => nomatch hchild⟩
    | _ => exact absurd rfl hbears

/-- A node is valid that is as its kind is declared, when the nodes under it are valid. -/
theorem Describes.valid (h : schema.Describes node)
    (hdistinct : (Grammar.declared schema).Distinct) (hnode : node.WellFormed)
    (hbelow : ∀ name P slot child, (Grammar.declared schema).branch? node name = some P →
      P.childAt? slot = some child → (Grammar.declared schema).Valid child) :
    (Grammar.declared schema).Valid node := by
  refine (Grammar.valid_iff hnode.keys).mpr ⟨h.branches, fun name P hbranch => ?_⟩
  obtain ⟨-, hP, -, declarations, hdeclared, hname⟩ :=
    (Grammar.branch?_eq_some hnode.keys).mp hbranch
  obtain ⟨declaration, hmem, rfl⟩ := List.mem_map.mp hname
  obtain ⟨others, hothers, hall⟩ := h
  obtain rfl : others = declarations := Except.ok.inj (hothers.symm.trans hdeclared)
  obtain ⟨Q, hQ, hmet⟩ := hall declaration hmem
  obtain rfl : Q = P := Option.some.inj (hQ.symm.trans hP)
  refine ⟨hmet.populated, fun slot child hchild => ⟨?_, hbelow _ _ slot child hbranch hchild⟩⟩
  exact (accepts_eq_ok hdistinct hdeclared hmem child.kind).mpr (hmet.accepts slot child hchild)

/-- A document is valid exactly when every node that takes part is as its kind is declared. -/
theorem valid_iff_describes (hdistinct : (Grammar.declared schema).Distinct)
    (hdocument : document.WellFormed) : (Grammar.declared schema).Valid document ↔
      ∀ path node, (Grammar.declared schema).reach document path = some node →
        schema.Describes node := by
  constructor
  · intro hvalid path node hreach
    exact describes_of_valid hdistinct (Grammar.wellFormed_reach hdocument hreach)
      (hvalid.reach hdocument hreach)
  · intro hall
    -- Induction on the document; the paths below a child go through its slot.
    induction document using Node.induct with
    | step document ih =>
      refine (hall [] document rfl).valid hdistinct hdocument
        fun name P slot child hbranch hchild => ?_
      have hP := Grammar.property?_of_branch? hdocument.keys hbranch
      have hmem := Property.mem_nodes_of_childAt? hchild
      have hstep : (Grammar.declared schema).stepTo document ⟨name, slot⟩ = some child :=
        Grammar.stepTo_eq_some.mpr ⟨P, hbranch, hchild⟩
      refine ih _ (Table.mem_of_get? hP) child hmem (hdocument.property hP hmem)
        fun path node hreach => hall (⟨name, slot⟩ :: path) node ?_
      exact Option.bind_eq_some_iff.mpr ⟨child, hstep, hreach⟩

end Schema

namespace Editor

variable {editor editor' : Editor} {document : Node} {grammar : Grammar} {settings : Settings}
  {requests : List Request} {answers : List (Except Refusal Reply)}

/-- A run leaves the grammar as it is. -/
theorem grammar_runAll (h : editor.Steady) (hrequests : ∀ request ∈ requests, request.WellFormed)
    (hrun : runAll requests editor = .ok (answers, editor')) :
    editor'.grammar = editor.grammar := by
  refine (runAll_induct (p := fun next => next.grammar = editor.grammar) (q := fun _ => True)
    (fun between request answer next hsteady hsame hrequest _ turn => ?_) h rfl
    (fun request hmem => ⟨hrequests request hmem, trivial⟩) hrun).2
  exact (turn.course hsteady hrequest (mapError_ne_broken answer)).grammar.trans hsame

/-- The document stays valid under its schema through every run, whatever is asked and whether it is
granted or refused: every node that a state stands for is as its kind is declared. -/
theorem valid_of_run {schema : Schema} (hdocument : document.WellFormed)
    (hdistinct : (Grammar.declared schema).Distinct)
    (hstart : ofDocument document (.declared schema) settings = .ok editor)
    (hrequests : ∀ request ∈ requests, request.WellFormed)
    (hrun : runAll requests editor = .ok (answers, editor')) :
    editor'.grammar = .declared schema ∧
      (Grammar.declared schema).validate editor'.document = .ok () ∧
      ∀ h node, editor'.node? h = some node → schema.Describes node := by
  obtain ⟨-, hgrammar, -⟩ := mirrors_ofDocument hdocument hdistinct hstart
  have hsteady := steady_ofDocument hdocument hdistinct hstart
  have hsame : editor'.grammar = .declared schema :=
    (grammar_runAll hsteady hrequests hrun).trans hgrammar
  obtain ⟨ν, hmirrors⟩ := (steady_runAll hsteady hrequests hrun).sound
  have hvalid : (Grammar.declared schema).Valid editor'.document := hsame ▸ hmirrors.valid
  refine ⟨hsame, hvalid, fun h node hnode => ?_⟩
  have hlive : editor'.store.Live h := by
    by_contra hdead
    rw [node?_of_not_live hdead] at hnode
    cases hnode
  obtain ⟨path, hclimbs⟩ := hmirrors.standing.rooted h hlive
  have hreach : (Grammar.declared schema).reach editor'.document path = some node := by
    rw [← hsame, ← hmirrors.standing.label_of_climbs hmirrors.document hclimbs,
      ← node?_eq hmirrors hlive, hnode]
  exact (Schema.valid_iff_describes hdistinct hmirrors.wellFormed).mp hvalid path node hreach

/-- A schema of lists of items with an optional note. -/
def catalogue : Schema :=
  ⟨[("Root", [⟨"items", .list, ["A"]⟩, ⟨"note", .optional, ["Note"]⟩]), ("A", []),
    ("Note", [⟨"text", .value, []⟩])]⟩

/-- A document of that schema. -/
def catalogued : Node :=
  .mk "Root" [("items", .list [.bare "A"]),
    ("note", .optional true (some (.mk "Note" [("text", .value (.text "one"))])))]

/-- A run that lets the note retain a node of another kind, which then cannot be assigned. -/
def smuggling : List Request :=
  [.execute (.plain (.unassign ⟨[], "note"⟩ (.mk "Note" [("text", .value (.text "one"))])
      (some (.bare "Stranger"))) []),
    .command (.assign (.within ⟨0, 0⟩ "note" .optional) none),
    .command (.insert ⟨⟨0, 0⟩, "items", .list 0, .bare "Stranger"⟩), .undo]

/-- At the end of such a run the document is valid. -/
theorem valid_of_smuggling : catalogued.WellFormed ∧ (Grammar.declared catalogue).Distinct ∧
    (∀ request ∈ smuggling, request.WellFormed) ∧
    ∃ start answers last, ofDocument catalogued (.declared catalogue) .standard = .ok start ∧
      runAll smuggling start = .ok (answers, last) ∧
        (Grammar.declared catalogue).validate last.document = .ok () := by
  have hdocument : catalogued.WellFormed := by decide
  have hdistinct : (Grammar.declared catalogue).Distinct := by
    intro kind declarations hdeclared
    simp only [Schema.declarations, catalogue, Table.get?] at hdeclared
    split at hdeclared
    · rename_i found hfound
      cases hdeclared
      split_ifs at hfound <;> cases hfound <;> decide
    · cases hdeclared
  have hrequests : ∀ request ∈ smuggling, request.WellFormed := by decide
  obtain ⟨start, hstart, hrun⟩ := exists_start (d := catalogued) (g := .declared catalogue)
    (s := .standard) (p := fun start => (runAll smuggling start).toOption.isSome) (by cbv)
  obtain ⟨⟨answers, last⟩, hrun⟩ := Option.isSome_iff_exists.mp hrun
  have hrun := toOption_eq_some.mp hrun
  exact ⟨hdocument, hdistinct, hrequests, start, answers, last, hstart, hrun,
    (valid_of_run hdocument hdistinct hstart hrequests hrun).2.1⟩

end Editor

end TreeEditor
