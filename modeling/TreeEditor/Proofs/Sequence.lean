import TreeEditor.Proofs.Outcome
import TreeEditor.Blocks

/-!
# Sequences that correspond

The edits of a sequence or of a list of blocks do not look at the items. So two lists whose items
correspond are changed alike: an edit is refused on both or goes through on both, and the results
correspond again. This is what keeps the nodes of a document and the handles of the states in step,
and also two documents that are the same up to the order of properties.

The edits neither lose nor repeat an item: what is there afterwards is a permutation of what was
there before, with the inserted item and without the removed one.
-/

namespace TreeEditor

section Lists

variable {α β : Type} {R : α → β → Prop} {as : List α} {bs : List β}

/-- Corresponding lists have corresponding items at a position. -/
theorem rel_getElem? (h : List.Forall₂ R as bs) (position : Nat) :
    Option.Rel R as[position]? bs[position]? := by
  induction h generalizing position with
  | nil => exact .none
  | cons hab _ ih =>
    cases position with
    | zero => exact .some hab
    | succ position => simpa using ih position

/-- Inserting corresponding items keeps a correspondence. -/
theorem forall₂_insertIdx {a : α} {b : β} (h : List.Forall₂ R as bs) (hab : R a b)
    (position : Nat) : List.Forall₂ R (as.insertIdx position a) (bs.insertIdx position b) := by
  induction position generalizing as bs with
  | zero => simpa using ⟨hab, h⟩
  | succ position ih =>
    cases h with
    | nil => exact .nil
    | cons hab' hrest => exact .cons hab' (ih hrest)

/-- Erasing the items at one position keeps a correspondence. -/
theorem forall₂_eraseIdx (h : List.Forall₂ R as bs) (position : Nat) :
    List.Forall₂ R (as.eraseIdx position) (bs.eraseIdx position) := by
  induction h generalizing position with
  | nil => exact .nil
  | cons hab hrest ih =>
    cases position with
    | zero => exact hrest
    | succ position => exact .cons hab (ih position)

/-- Replacing the items at one position by corresponding ones keeps a correspondence. -/
theorem forall₂_set {a : α} {b : β} (h : List.Forall₂ R as bs) (hab : R a b) (position : Nat) :
    List.Forall₂ R (as.set position a) (bs.set position b) := by
  induction h generalizing position with
  | nil => exact .nil
  | cons hab' hrest ih =>
    cases position with
    | zero => exact .cons hab hrest
    | succ position => exact .cons hab' (ih position)

/-- Changing one item of each of two related lists gives lists related in some way if it does so for
the changed items and for all others. -/
theorem forall₂_modify_at {R' : α → β → Prop} {f : α → α} {g : β → β} (h : List.Forall₂ R as bs)
    (position : Nat)
    (hothers : ∀ other a b, other ≠ position → bs[other]? = some b → R a b → R' a b)
    (hat : ∀ a b, as[position]? = some a → bs[position]? = some b → R a b → R' (f a) (g b)) :
    List.Forall₂ R' (as.modify position f) (bs.modify position g) := by
  induction h generalizing position with
  | nil => simp
  | @cons a b as bs hab h ih =>
    cases position with
    | zero =>
      refine .cons (hat a b rfl rfl hab) ((List.forall₂_iff_get.mpr ⟨h.length_eq, ?_⟩))
      intro i ha hb
      exact hothers (i + 1) _ _ (by simp) (by simp) (h.get ha hb)
    | succ position =>
      refine .cons (hothers 0 a b (by simp) rfl hab) (ih position ?_ ?_)
      · intro other a b hne hb
        exact hothers (other + 1) a b (by omega) hb
      · intro a b ha hb
        exact hat a b ha hb

/-- Changing one item of each of two related lists alike keeps them related. -/
theorem forall₂_modify {f : α → α} {g : β → β} (h : List.Forall₂ R as bs)
    (hfg : ∀ a b, R a b → R (f a) (g b)) (position : Nat) :
    List.Forall₂ R (as.modify position f) (bs.modify position g) :=
  forall₂_modify_at h position (fun _ _ _ _ _ hab => hab) fun a b _ _ hab => hfg a b hab

/-- Lists of one length correspond when all their items do. -/
theorem forall₂_of_forall (hlength : as.length = bs.length) (h : ∀ a ∈ as, ∀ b ∈ bs, R a b) :
    List.Forall₂ R as bs :=
  List.forall₂_iff_get.mpr ⟨hlength, fun _ _ _ => h _ (List.get_mem _ _) _ (List.get_mem _ _)⟩

/-- A list has an item at every position short of its length. -/
theorem exists_getElem? {position : Nat} :
    (∃ a, as[position]? = some a) ↔ position < as.length := by
  constructor
  · rintro ⟨a, ha⟩
    exact (List.getElem?_eq_some_iff.mp ha).1
  · exact fun hlt => ⟨_, List.getElem?_eq_getElem hlt⟩

end Lists

section Sequences

variable {α β : Type} {R : α → β → Prop} {as : List α} {bs : List β}

/-- Two results of an edit of a sequence correspond when the values beside them do and the lists
do. -/
def Beside {γ δ : Type} (P : γ → δ → Prop) (R : α → β → Prop) (x : γ × List α)
    (y : δ × List β) : Prop :=
  P x.1 y.1 ∧ List.Forall₂ R x.2 y.2

/-- An item is at a position of corresponding lists alike. -/
theorem itemAt_rel (h : List.Forall₂ R as bs) (position : Nat) :
    Option.Rel R (itemAt position as).toOption (itemAt position bs).toOption := by
  have hrel := rel_getElem? h position
  unfold itemAt
  revert hrel
  generalize as[position]? = a
  generalize bs[position]? = b
  intro hrel
  cases hrel with
  | none => exact .none
  | some hab => exact .some hab

/-- An item is there exactly when the list has one at the position. -/
theorem itemAt_eq_ok {position : Nat} {a : α} :
    itemAt position as = .ok a ↔ as[position]? = some a := by
  unfold itemAt
  cases as[position]? <;> simp

/-- Corresponding lists take corresponding items alike. -/
theorem insertItem_rel (h : List.Forall₂ R as bs) {a : α} {b : β} (hab : R a b)
    (position : Nat) :
    Option.Rel (List.Forall₂ R) (insertItem position a as).toOption
      (insertItem position b bs).toOption := by
  unfold insertItem checkInsertion
  rw [h.length_eq]
  split
  · exact .some (forall₂_insertIdx h hab position)
  · exact .none

/-- Corresponding lists give up corresponding items. -/
theorem removeItem_rel (h : List.Forall₂ R as bs) (position : Nat) :
    Option.Rel (Beside R R) (removeItem position as).toOption
      (removeItem position bs).toOption := by
  unfold removeItem
  exact rel_step (itemAt_rel h position) fun a b hab =>
    .some ⟨hab, forall₂_eraseIdx h position⟩

/-- Items of corresponding lists move alike. -/
theorem moveItem_rel (h : List.Forall₂ R as bs) (position : Nat) (delta : Int) :
    Option.Rel (Beside Eq R) (moveItem position delta as).toOption
      (moveItem position delta bs).toOption := by
  unfold moveItem
  rw [h.length_eq]
  refine rel_step (R := Eq) ?_ fun target target' htarget => ?_
  · cases (moveTarget position delta bs.length).toOption
    · exact .none
    · exact .some rfl
  · subst htarget
    exact rel_step (itemAt_rel h position) fun a b hab =>
      .some ⟨rfl, forall₂_insertIdx (forall₂_eraseIdx h position) hab target⟩

/-! ## What the edits give -/

/-- An insertion goes through at a position that is not beyond the end. -/
theorem insertItem_eq_ok {position : Nat} {a : α} {as' : List α} :
    insertItem position a as = .ok as' ↔
      position ≤ as.length ∧ as' = as.insertIdx position a := by
  unfold insertItem checkInsertion
  split <;> simp_all [eq_comm]

/-- A removal goes through at the position of an item. -/
theorem removeItem_eq_ok {position : Nat} {a : α} {as' : List α} :
    removeItem position as = .ok (a, as') ↔
      as[position]? = some a ∧ as' = as.eraseIdx position := by
  unfold removeItem itemAt
  cases as[position]? <;> simp [eq_comm]

/-- A position below 2^63 is read as it is. -/
theorem signed_of_lt {position : Nat} (h : position < 2 ^ 63) : signed position = position := by
  rw [signed, if_pos (by omega)]

/-- A position of 2^63 or more is read as a negative number. -/
theorem signed_neg {position : Nat} (h : ¬ position < 2 ^ 63) : signed position < 0 := by
  rw [signed, if_neg (by omega)]
  omega

/-- A move arrives at a distance from its position, inside the list. -/
theorem moveTarget_eq_ok {position count target : Nat} {delta : Int} :
    moveTarget position delta count = .ok target ↔
      position < count ∧ count < 2 ^ 63 ∧ (target : Int) = position + delta ∧
        target < count := by
  simp only [moveTarget]
  by_cases hlt : position < count
  · rw [if_pos hlt]
    -- A list of so many items has a negative length as a signed number, and no target is in it.
    by_cases hcount : count < 2 ^ 63
    · rw [signed_of_lt hcount, signed_of_lt (show position < 2 ^ 63 by omega)]
      split
      · rw [Except.ok.injEq]
        omega
      · constructor
        · intro h
          cases h
        · omega
    · have hneg := signed_neg hcount
      rw [if_neg (by omega)]
      constructor
      · intro h
        cases h
      · omega
  · rw [if_neg hlt]
    constructor
    · intro h
      cases h
    · omega

/-- A move goes through from the position of an item to one inside the list. -/
theorem moveItem_eq_ok {position target : Nat} {delta : Int} {as' : List α} :
    moveItem position delta as = .ok (target, as') ↔
      moveTarget position delta as.length = .ok target ∧
        ∃ a, as[position]? = some a ∧ as' = (as.eraseIdx position).insertIdx target a := by
  unfold moveItem
  rw [bind_eq_ok]
  constructor
  · rintro ⟨target', htarget, h⟩
    obtain ⟨a, ha, heq⟩ := bind_eq_ok.mp h
    cases heq
    exact ⟨htarget, a, itemAt_eq_ok.mp ha, rfl⟩
  · rintro ⟨htarget, a, ha, rfl⟩
    exact ⟨target, htarget, bind_eq_ok.mpr ⟨a, itemAt_eq_ok.mpr ha, rfl⟩⟩

/-! ## Nothing is lost -/

/-- After an insertion the inserted item is there beside the others. -/
theorem insertItem_perm {position : Nat} {a : α} {as' : List α}
    (h : insertItem position a as = .ok as') : as'.Perm (a :: as) := by
  obtain ⟨hle, rfl⟩ := insertItem_eq_ok.mp h
  exact List.perm_insertIdx a as hle

/-- Before a removal the removed item was there beside the others. -/
theorem removeItem_perm {position : Nat} {a : α} {as' : List α}
    (h : removeItem position as = .ok (a, as')) : as.Perm (a :: as') := by
  obtain ⟨ha, rfl⟩ := removeItem_eq_ok.mp h
  obtain ⟨hlt, rfl⟩ := List.getElem?_eq_some_iff.mp ha
  exact (List.getElem_cons_eraseIdx_perm hlt).symm

/-- An item that is moved stood at its position and arrives at its target. -/
theorem getElem?_moveItem {position target : Nat} {delta : Int} {as' : List α}
    (h : moveItem position delta as = .ok (target, as')) :
    ∃ a, as[position]? = some a ∧ as'[target]? = some a := by
  obtain ⟨htarget, a, ha, rfl⟩ := moveItem_eq_ok.mp h
  obtain ⟨hlt, -, -, hlt'⟩ := moveTarget_eq_ok.mp htarget
  refine ⟨a, ha, ?_⟩
  rw [List.getElem?_insertIdx_self, if_pos]
  rw [List.length_eraseIdx_of_lt hlt]
  omega

/-- A move keeps the items. -/
theorem moveItem_perm {position target : Nat} {delta : Int} {as' : List α}
    (h : moveItem position delta as = .ok (target, as')) : as'.Perm as := by
  obtain ⟨htarget, a, ha, rfl⟩ := moveItem_eq_ok.mp h
  obtain ⟨hlt, rfl⟩ := List.getElem?_eq_some_iff.mp ha
  have hbound := moveTarget_eq_ok.mp htarget
  have hle : target ≤ (as.eraseIdx position).length := by
    rw [List.length_eraseIdx_of_lt hlt]
    omega
  exact (List.perm_insertIdx _ _ hle).trans (List.getElem_cons_eraseIdx_perm hlt)

end Sequences

end TreeEditor
