import TreeEditor.Proofs.Congruence

/-!
# Edits made one after the other

What several edits make of a document is what the last makes of what the others made
(`Edit.effects`). Taken back in the opposite order they make of the result a document that is the
same as the first one (`Edit.effects_invert_same`): what one edit taken back leaves is the same as
what the edit found, and the edits before it do not tell the two apart. When each edit recorded what
it found, the document comes back as it was, and the edits join the two documents in both directions
(`Edit.joins_of_faithful`).
-/

namespace TreeEditor.Edit

variable {grammar : Grammar} {edit : Edit} {edits others : List Edit} {a b c : Node}

/-- What edits made one after the other make of a document. -/
def effects (grammar : Grammar) : List Edit → Node → Option Node
  | [], document => some document
  | edit :: rest, document => (edit.effect grammar document).bind (effects grammar rest)

/-- Edits have an effect when the first has one and the others have one on what it made. -/
theorem effects_cons_eq_some :
    effects grammar (edit :: edits) a = some c ↔
      ∃ b, edit.effect grammar a = some b ∧ effects grammar edits b = some c :=
  Option.bind_eq_some_iff

/-- A single edit has its effect. -/
@[simp]
theorem effects_singleton (grammar : Grammar) (edit : Edit) (document : Node) :
    effects grammar [edit] document = edit.effect grammar document :=
  Option.bind_fun_some _

/-- Further edits are made of what the first ones made. -/
theorem effects_append (grammar : Grammar) (edits others : List Edit) (document : Node) :
    effects grammar (edits ++ others) document =
      (effects grammar edits document).bind (effects grammar others) := by
  induction edits generalizing document with
  | nil => rfl
  | cons edit edits ih =>
    rw [List.cons_append, effects, effects, Option.bind_assoc]
    exact congrArg _ (funext ih)

/-- The inverses of well-formed edits are well-formed. -/
theorem wellFormed_inverses (hedits : ∀ edit ∈ edits, edit.WellFormed) :
    ∀ edit ∈ edits.reverse.map invert, edit.WellFormed := fun edit hedit => by
  obtain ⟨edit, hmem, rfl⟩ := List.mem_map.mp hedit
  exact (hedits edit (List.mem_reverse.mp hmem)).invert

/-! ## What edits preserve -/

/-- What every single edit preserves, edits made one after the other preserve. -/
theorem effects_induct {p : Node → Prop}
    (hstep : ∀ edit ∈ edits, ∀ a b, p a → edit.effect grammar a = some b → p b) (ha : p a)
    (h : effects grammar edits a = some b) : p b := by
  induction edits generalizing a with
  | nil => exact Option.some.inj h ▸ ha
  | cons edit edits ih =>
    obtain ⟨m, hfirst, hrest⟩ := effects_cons_eq_some.mp h
    exact ih (fun e he => hstep e (List.mem_cons_of_mem _ he))
      (hstep edit List.mem_cons_self a m ha hfirst) hrest

/-- Well-formed edits keep a document well-formed. -/
theorem wellFormed_effects (ha : a.WellFormed) (hedits : ∀ edit ∈ edits, edit.WellFormed)
    (h : effects grammar edits a = some b) : b.WellFormed :=
  effects_induct (p := Node.WellFormed) (fun e he _ _ hm => wellFormed_effect hm (hedits e he)) ha h

/-! ## Taking edits back -/

/-- Edits of a filled document can be taken back in the opposite order, which gives a document that
is the same as the first one. -/
theorem effects_invert_same (ha : a.WellFormed) (hvalid : grammar.Valid a) (hfilled : a.Filled)
    (hedits : ∀ edit ∈ edits, edit.WellFormed ∧ edit.Filled)
    (h : effects grammar edits a = some b) :
    ∃ back, effects grammar (edits.reverse.map invert) b = some back ∧ back.Same a := by
  induction edits generalizing a with
  | nil => exact ⟨a, Option.some.inj h ▸ rfl, Node.same_refl ha⟩
  | cons edit edits ih =>
    obtain ⟨m, hfirst, hrest⟩ := effects_cons_eq_some.mp h
    obtain ⟨hedit, hedit'⟩ := hedits edit List.mem_cons_self
    have hedits' := fun e he => hedits e (List.mem_cons_of_mem edit he)
    have hm := wellFormed_effect ha hedit hfirst
    obtain ⟨m', hback, hm'⟩ := ih hm (valid_effect ha hvalid hedit hfirst)
      (filled_effect ha hfilled hedit' hfirst) hedits' hrest
    obtain ⟨back, hlast, hsame⟩ := effect_invert_same ha hvalid hfilled hedit hfirst
    have hwell := wellFormed_effects
      (wellFormed_effects hm (fun e he => (hedits' e he).1) hrest)
      (wellFormed_inverses fun e he => (hedits' e he).1) hback
    obtain ⟨back', hlast', hsame'⟩ := effect_same hwell hm hedit.invert hm' hlast
    refine ⟨back', ?_, Node.same_trans (wellFormed_effect hwell hedit.invert hlast')
      (wellFormed_effect hm hedit.invert hlast) ha hsame' hsame⟩
    rw [List.reverse_cons, List.map_append, effects_append, hback]
    exact (effects_singleton grammar edit.invert m').trans hlast'

/-- Edits lead from one document to another, and taken back in the opposite order they lead back to
the very same document. -/
structure Joins (grammar : Grammar) (edits : List Edit) (a b : Node) : Prop where
  forth : effects grammar edits a = some b
  back : effects grammar (edits.reverse.map invert) b = some a

/-- No edits lead nowhere else. -/
theorem Joins.nil (document : Node) : Joins grammar [] document document := ⟨rfl, rfl⟩

/-- Edits that lead on from where others lead to. -/
theorem Joins.append (h : Joins grammar edits a b) (h' : Joins grammar others b c) :
    Joins grammar (edits ++ others) a c where
  forth := by rw [effects_append, h.forth]; exact h'.forth
  back := by rw [List.reverse_append, List.map_append, effects_append, h'.back]; exact h.back

/-- An edit that records what it finds joins the document to what it makes of it. -/
theorem joins_singleton (ha : a.WellFormed) (hvalid : grammar.Valid a) (hedit : edit.WellFormed)
    (hfaithful : edit.Faithful grammar a) (h : edit.effect grammar a = some b) :
    Joins grammar [edit] a b where
  forth := (effects_singleton grammar edit a).trans h
  back := (effects_singleton grammar edit.invert b).trans
    (effect_invert_exact ha hvalid hedit hfaithful h)

/-- Each of several edits records what it finds when its turn comes. -/
def AllFaithful (grammar : Grammar) : List Edit → Node → Prop
  | [], _ => True
  | edit :: rest, document => edit.Faithful grammar document ∧
    ∀ next, edit.effect grammar document = some next → AllFaithful grammar rest next

/-- Edits that record what they find join the document to what they make of it. -/
theorem joins_of_faithful (ha : a.WellFormed) (hvalid : grammar.Valid a)
    (hedits : ∀ edit ∈ edits, edit.WellFormed) (hfaithful : AllFaithful grammar edits a)
    (h : effects grammar edits a = some b) : Joins grammar edits a b := by
  induction edits generalizing a with
  | nil => exact Option.some.inj h ▸ .nil a
  | cons edit edits ih =>
    obtain ⟨m, hfirst, hrest⟩ := effects_cons_eq_some.mp h
    have hedit := hedits edit List.mem_cons_self
    exact (joins_singleton ha hvalid hedit hfaithful.1 hfirst).append
      (ih (wellFormed_effect ha hedit hfirst) (valid_effect ha hvalid hedit hfirst)
        (fun e he => hedits e (List.mem_cons_of_mem _ he)) (hfaithful.2 m hfirst) hrest)

end TreeEditor.Edit
