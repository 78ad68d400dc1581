import TreeEditor.Proofs.AnnouncedGrowth
import TreeEditor.Proofs.Runs

/-!
# Making an editor, for any schema

A schema may be anything that its text can say; above all it may declare a property of a kind of
node twice. An editor is then still made of the valid documents and of no others, and it still has a
state for every creation that it announced (`Editor.founded`). Its states stand for the document
only if no property with children is declared twice: the second branch of a name takes the place of
the first one, and the states that this one held are left without a way down to them
(`Editor.unregistered_of_repeated`).
-/

namespace TreeEditor

namespace Store

variable {σ : Store} {notices : List Notice} {events : List Event}

/-- As many creations are announced as there are notices of one. -/
theorem countP_eq_of_attests (h : List.Forall₂ σ.Attests notices events) :
    notices.countP Notice.isCreated = events.countP fun event => event.kind = .stateCreated := by
  induction h with
  | nil => rfl
  | cons hattests _ ih =>
    rw [List.countP_cons, List.countP_cons, ih]
    cases hattests <;> rfl

/-- A state whose creation bears a notice out is live. -/
theorem live_of_attests (h : List.Forall₂ σ.Attests notices events) {place : Place} {state : Handle}
    (hmem : .stateCreated place state ∈ events) : σ.Live state := by
  obtain ⟨i, hi⟩ := List.mem_iff_getElem?.mp hmem
  have hrel := rel_getElem? h i
  rw [hi, rel_some_right] at hrel
  obtain ⟨notice, -, hattests⟩ := hrel
  cases hattests with
  | created stands climbs => exact climbs.live

end Store

/-- It is enough to look through the kinds of a schema. -/
theorem Grammar.distinctBranches_of_kinds {schema : Schema} (h : ∀ entry ∈ schema.kinds,
    ((entry.2.filter (·.kind.bearsChildren)).map Declaration.name).Nodup) :
    (declared schema).DistinctBranches := by
  intro kind declarations hdeclared
  unfold Schema.declarations at hdeclared
  split at hdeclared
  · rename_i found hfound
    cases hdeclared
    exact h _ (Table.mem_of_get? hfound)
  · cases hdeclared

namespace Editor

variable {document : Node} {grammar : Grammar} {settings : Settings} {editor : Editor}

/-- An editor is made of the valid documents and of no others, with a state for every creation that
is announced. If the schema names no property with children twice, its states stand for the document
and lie on paths from the root. -/
theorem founded (hdocument : document.WellFormed) (grammar : Grammar) (settings : Settings) :
    ((∃ editor, ofDocument document grammar settings = .ok editor) ↔
      grammar.validate document = .ok ()) ∧
    ∀ editor, ofDocument document grammar settings = .ok editor →
      editor.stateCount = editor.store.journal.toList.countP
        (fun event => event.kind = .stateCreated) ∧
      (grammar.DistinctBranches → editor.verify = .ok () ∧
        ∀ place h, .stateCreated place h ∈ editor.store.journal.toList →
          ∃ path, editor.pathOf h = .ok path ∧ editor.resolve path = .ok h) := by
  refine ⟨⟨?_, fun hvalid => ?_⟩, fun editor hmade => ?_⟩
  · rintro ⟨editor, hmade⟩
    exact valid_of_ofDocument hmade
  · obtain ⟨editor, hmade, -⟩ := exists_announced hdocument hvalid settings
    exact ⟨editor, hmade⟩
  have hraises := announced_ofDocument hdocument hmade
  obtain ⟨events, hevents, hattests⟩ := hraises.journal
  obtain rfl : editor.store.journal.toList = events := by simpa [Store.empty] using hevents
  refine ⟨?_, fun hgrammar => ?_⟩
  · rw [stateCount, hraises.size, Store.countP_eq_of_attests hattests]
    exact Nat.zero_add _
  · obtain ⟨editor', ν, hmade', hσ, hroot, rfl, rfl, -⟩ :=
      exists_standing hdocument (valid_of_ofDocument hmade) hgrammar settings
    rw [hmade] at hmade'
    cases hmade'
    refine ⟨verify_of_standing hσ hroot hdocument (valid_of_ofDocument hmade),
      fun place h hmem => ?_⟩
    obtain ⟨path, hclimbs⟩ := hσ.rooted h (Store.live_of_attests hattests hmem)
    exact ⟨path, pathOf_eq_ok.mpr hclimbs, (resolveFrom_eq_ok hσ hσ.climbs_root).mpr hclimbs⟩

/-- A document with a list of one item. -/
def listing : Node := .mk "Root" [("items", .list [.bare "A"])]

/-- A schema for such documents, with the declarations for their root given. -/
def listingSchema (declarations : List Declaration) : Schema :=
  ⟨[("Root", declarations), ("A", [])]⟩

/-- The declaration of the items. -/
def itemsDeclaration : Declaration := ⟨"items", .list, []⟩

/-- When the items are declared once, an editor of such a document has two states, for two
creations, and they stand for the document. -/
theorem founded_listing : listing.WellFormed ∧ ∃ editor,
    ofDocument listing (.declared (listingSchema [itemsDeclaration])) .standard = .ok editor ∧
      editor.stateCount = 2 ∧
      editor.store.journal.toList.countP (fun event => event.kind = .stateCreated) = 2 ∧
      editor.verify = .ok () ∧
      ∀ place h, .stateCreated place h ∈ editor.store.journal.toList →
        ∃ path, editor.pathOf h = .ok path ∧ editor.resolve path = .ok h := by
  have hdocument : listing.WellFormed := by decide
  obtain ⟨start, hstart, hcount⟩ := exists_start (d := listing)
    (g := .declared (listingSchema [itemsDeclaration])) (s := .standard)
    (p := fun start => start.stateCount = 2) (by cbv)
  have hcount := of_decide_eq_true hcount
  obtain ⟨hcreated, hstands⟩ :=
    (founded hdocument (.declared (listingSchema [itemsDeclaration])) .standard).2 start hstart
  exact ⟨hdocument, start, hstart, hcount, hcreated ▸ hcount,
    hstands (Grammar.distinctBranches_of_kinds (by decide))⟩

/-- When the items are declared twice, the state of the item that was made first is lost: it is not
on the register, and its path leads to the state that was made for the same item once more. -/
theorem unregistered_of_repeated : ∃ editor,
    ofDocument listing (.declared (listingSchema [itemsDeclaration, itemsDeclaration]))
        .standard = .ok editor ∧
      .stateCreated (.within ⟨0, 0⟩ "items" (.list 0)) ⟨1, 0⟩ ∈ editor.store.journal.toList ∧
      editor.verify = .error (.unregistered ⟨1, 0⟩ (.within ⟨0, 0⟩ "items" (.list 0))) ∧
      (editor.pathOf ⟨1, 0⟩).toOption = some [⟨"items", .list 0⟩] ∧
      (editor.resolve [⟨"items", .list 0⟩]).toOption = some ⟨2, 0⟩ := by
  obtain ⟨start, hstart, hfound⟩ := exists_start (d := listing)
    (g := .declared (listingSchema [itemsDeclaration, itemsDeclaration])) (s := .standard)
    (p := fun start =>
      .stateCreated (.within ⟨0, 0⟩ "items" (.list 0)) ⟨1, 0⟩ ∈ start.store.journal.toList ∧
      start.verify = .error (.unregistered ⟨1, 0⟩ (.within ⟨0, 0⟩ "items" (.list 0))) ∧
      (start.pathOf ⟨1, 0⟩).toOption = some [⟨"items", .list 0⟩] ∧
      (start.resolve [⟨"items", .list 0⟩]).toOption = some ⟨2, 0⟩) (by cbv)
  exact ⟨start, hstart, of_decide_eq_true hfound⟩

end Editor

end TreeEditor
