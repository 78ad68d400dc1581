import TreeEditor.Editor.Request
import TreeEditor.Proofs.Application
import TreeEditor.Proofs.Audit
import TreeEditor.Proofs.Succession

/-!
# Making groups of edits and taking them back

An editor makes edits one after the other where they have an effect one after the other
(`Editor.foldlM_apply_answers`). Making a group is the same up to the first edit that is refused;
then the edits before it are taken back (`Editor.applyAll_of_refused`). Taking back breaks down
where an inverse is refused, and in no other way (`Editor.revertAll_broken`). Where the document and
the edits are filled no inverse is refused, and the document that comes back is the same as before.
-/

namespace TreeEditor

namespace Editor

variable {editor editor' : Editor} {edit : Edit} {edits made rest : List Edit}

/-- The states of an editor stand for its document. -/
def Sound (editor : Editor) : Prop := ∃ ν, editor.Mirrors ν

/-- The check of a sound editor finds nothing. -/
theorem Sound.verify (h : editor.Sound) : editor.verify = .ok () := by
  obtain ⟨ν, hmirrors⟩ := h
  exact hmirrors.verify

/-- What was announced is no matter of the document and the states. -/
theorem Sound.journal (h : editor.Sound) (journal : Array Event) :
    Sound { editor with store := { editor.store with journal } } := by
  obtain ⟨ν, hmirrors⟩ := h
  exact ⟨ν, hmirrors.standing.journal journal, hmirrors.document, hmirrors.wellFormed,
    hmirrors.valid, hmirrors.distinct⟩

/-- What was recorded is no matter of the document and the states. -/
theorem Sound.history (h : editor.Sound) (history : History) :
    Sound { editor with history } := by
  obtain ⟨ν, hmirrors⟩ := h
  exact ⟨ν, hmirrors.standing, hmirrors.document, hmirrors.wellFormed, hmirrors.valid,
    hmirrors.distinct⟩

/-- Two editors differ at most in what an edit changes: in the document and the states. -/
structure Alike (editor editor' : Editor) : Prop where
  grammar : editor'.grammar = editor.grammar
  root : editor'.root = editor.root
  history : editor'.history = editor.history
  settings : editor'.settings = editor.settings

namespace Alike

/-- Making no edit changes nothing. -/
theorem refl (editor : Editor) : editor.Alike editor := ⟨rfl, rfl, rfl, rfl⟩

/-- Several edits change no more than one. -/
theorem trans {editor'' : Editor} (h : editor.Alike editor') (h' : editor'.Alike editor'') :
    editor.Alike editor'' :=
  ⟨h'.grammar.trans h.grammar, h'.root.trans h.root, h'.history.trans h.history,
    h'.settings.trans h.settings⟩

end Alike

/-- What edits leave of an editor: they change its document to another one. -/
structure Becomes (editor editor' : Editor) (document : Node) : Prop where
  document : editor'.document = document
  sound : editor'.Sound
  alike : editor.Alike editor'

/-- An edit is made where it has an effect, and is refused elsewhere. -/
theorem apply_becomes (hsound : editor.Sound) (hedit : edit.WellFormed) :
    Answers (editor.apply edit) (edit.effect editor.grammar editor.document) editor.Becomes := by
  obtain ⟨ν, hmirrors⟩ := hsound
  have hanswers := apply_answers hmirrors hedit
  cases heffect : edit.effect editor.grammar editor.document with
  | none => rwa [heffect] at hanswers
  | some document =>
    rw [heffect] at hanswers
    obtain ⟨editor', happly, σ', ν', rfl, hσ', hroot, -⟩ := hanswers
    exact ⟨_, happly, rfl, ⟨ν', hσ', hroot,
      Edit.wellFormed_effect hmirrors.wellFormed hedit heffect,
      Edit.valid_effect hmirrors.wellFormed hmirrors.valid hedit heffect, hmirrors.distinct⟩,
      ⟨rfl, rfl, rfl, rfl⟩⟩

/-- Edits are made one after the other where they have an effect one after the other. -/
theorem foldlM_apply_answers (hsound : editor.Sound) (hedits : ∀ edit ∈ edits, edit.WellFormed) :
    Answers (edits.foldlM apply editor)
      (Edit.effects editor.grammar edits editor.document) editor.Becomes := by
  induction edits generalizing editor with
  | nil => exact .granted ⟨rfl, hsound, .refl editor⟩
  | cons edit edits ih =>
    refine (apply_becomes hsound (hedits edit List.mem_cons_self)).bind
      fun next document _ _ hbecomes => ?_
    obtain ⟨rfl, hnext, halike⟩ := hbecomes
    have hrest := ih hnext fun e he => hedits e (List.mem_cons_of_mem _ he)
    rw [halike.grammar] at hrest
    exact hrest.mono fun last document hlast =>
      ⟨hlast.document, hlast.sound, halike.trans hlast.alike⟩

/-- What edits that were made one after the other leave of an editor. -/
theorem foldlM_apply_eq_ok (hsound : editor.Sound) (hedits : ∀ edit ∈ edits, edit.WellFormed)
    (h : edits.foldlM apply editor = .ok editor') :
    Edit.effects editor.grammar edits editor.document = some editor'.document ∧ editor'.Sound ∧
      editor.Alike editor' := by
  obtain ⟨_, heffects, rfl, hsound', halike⟩ := (foldlM_apply_answers hsound hedits).of_eq_ok h
  exact ⟨heffects, hsound', halike⟩

/-- Edits that have an effect one after the other are made. -/
theorem exists_of_effects (hsound : editor.Sound) (hedits : ∀ edit ∈ edits, edit.WellFormed)
    {d : Node} (h : Edit.effects editor.grammar edits editor.document = some d) :
    ∃ editor', edits.foldlM apply editor = .ok editor' ∧ editor.Becomes editor' d := by
  have hanswers := foldlM_apply_answers hsound hedits
  rwa [h] at hanswers

/-! ## Taking back -/

/-- Edits are taken back when their inverses are made. -/
theorem revertAll_eq_ok :
    revertAll edits editor = (.ok (), editor') ↔
      (edits.map Edit.invert).foldlM apply editor = .ok editor' := by
  induction edits generalizing editor with
  | nil => simp [revertAll]
  | cons edit edits ih =>
    rw [List.map_cons, List.foldlM_cons, revertAll, revert]
    cases happly : editor.apply edit.invert with
    | ok next => exact ih
    | error failure => cases failure <;> simp

/-- Taking edits back fails only where an inverse is refused, and then the editor breaks down. -/
theorem revertAll_broken (hsound : editor.Sound) (hedits : ∀ edit ∈ edits, edit.WellFormed)
    {failure : Failure} (h : revertAll edits editor = (.error failure, editor')) :
    ∃ name reason, failure = .broken (.revertFailed name reason) := by
  induction edits generalizing editor with
  | nil => cases h
  | cons edit edits ih =>
    have hanswers := apply_becomes hsound (hedits edit List.mem_cons_self).invert
    rw [revertAll, revert] at h
    cases heffect : edit.invert.effect editor.grammar editor.document with
    | none =>
      obtain ⟨reason, happly⟩ := heffect ▸ hanswers
      rw [happly] at h
      cases h
      exact ⟨_, _, rfl⟩
    | some document =>
      obtain ⟨next, happly, hbecomes⟩ := heffect ▸ hanswers
      rw [happly] at h
      exact ih hbecomes.sound (fun e he => hedits e (List.mem_cons_of_mem _ he)) h

/-! ## Groups -/

/-- The edits that go through are made before the first one that is refused. -/
theorem applyEach_append {done : List Edit} {between : Editor}
    (hmade : made.foldlM apply editor = .ok between) :
    applyEach done (made ++ rest) editor = applyEach (made.reverse ++ done) rest between := by
  induction made generalizing editor done with
  | nil => cases hmade; rfl
  | cons edit made ih =>
    obtain ⟨next, happly, hrest⟩ := bind_eq_ok.mp hmade
    rw [List.cons_append, applyEach, happly]
    dsimp only
    rw [ih hrest, List.reverse_cons, List.append_assoc, List.singleton_append]

/-- A group is made when its edits are made one after the other. -/
theorem applyAll_of_ok (h : edits.foldlM apply editor = .ok editor') :
    applyAll edits editor = (.ok (), editor') := by
  have heach : applyEach [] (edits ++ []) editor = applyEach (edits.reverse ++ []) [] editor' :=
    applyEach_append h
  rw [List.append_nil] at heach
  rw [applyAll, heach]
  rfl

/-- A group with an edit that is refused is refused for the same reason, once the edits before it
are taken back. Nothing is announced. -/
theorem applyAll_of_refused {between back : Editor} {reason : Refusal}
    (hmade : made.foldlM apply editor = .ok between)
    (hrefused : between.apply edit = .error (.refused reason))
    (hback : (made.reverse.map Edit.invert).foldlM apply between = .ok back) :
    applyAll (made ++ edit :: rest) editor = (.error (.refused reason),
      { back with store := { back.store with journal := editor.store.journal } }) := by
  rw [applyAll, applyEach_append hmade, List.append_nil, applyEach, hrefused]
  dsimp only
  rw [revertAll_eq_ok.mpr hback]

/-- A group with an edit that is refused breaks the editor down where the edits before it cannot be
taken back. -/
theorem applyAll_of_broken {between : Editor} {reason : Refusal} {failure : Failure}
    (hmade : made.foldlM apply editor = .ok between)
    (hrefused : between.apply edit = .error (.refused reason))
    (hback : revertAll made.reverse between = (.error failure, editor')) :
    applyAll (made ++ edit :: rest) editor = (.error failure,
      { editor' with store := { editor'.store with journal := editor.store.journal } }) := by
  rw [applyAll, applyEach_append hmade, List.append_nil, applyEach, hrefused]
  dsimp only
  rw [hback]

/-- Of edits either all are made or there is a first one that is refused. -/
theorem foldlM_apply_cases (hsound : editor.Sound) (hedits : ∀ edit ∈ edits, edit.WellFormed) :
    (∃ editor', edits.foldlM apply editor = .ok editor') ∨
      ∃ made edit rest between reason, edits = made ++ edit :: rest ∧
        made.foldlM apply editor = .ok between ∧
        between.apply edit = .error (.refused reason) := by
  induction edits generalizing editor with
  | nil => exact .inl ⟨editor, rfl⟩
  | cons edit edits ih =>
    have hanswers := apply_becomes hsound (hedits edit List.mem_cons_self)
    cases heffect : edit.effect editor.grammar editor.document with
    | none =>
      obtain ⟨reason, happly⟩ := heffect ▸ hanswers
      exact .inr ⟨[], edit, edits, editor, reason, rfl, rfl, happly⟩
    | some document =>
      obtain ⟨next, happly, hbecomes⟩ := heffect ▸ hanswers
      rcases ih hbecomes.sound fun e he => hedits e (List.mem_cons_of_mem _ he) with
        ⟨last, hlast⟩ | ⟨made, e, rest, between, reason, rfl, hmade, hrefused⟩
      · exact .inl ⟨last, by rw [List.foldlM_cons, happly]; exact hlast⟩
      · refine .inr ⟨edit :: made, e, rest, between, reason, rfl, ?_, hrefused⟩
        rw [List.foldlM_cons, happly]
        exact hmade

end Editor

end TreeEditor
