import Mathlib
import TreeEditor.Failure

/-!
# Outcomes

How the steps of a request are taken apart. A sequence of steps goes through exactly when each of
them does (`bind_eq_ok`), and a loop exactly when it does for every item (`forM_eq_ok`).

`Answers` relates a request to a partial function: where the function has a value the request goes
through with a related result, and where it has none the request is refused. It excludes a
breakdown in either case. Sequences of steps keep it (`Answers.bind`), so an edit is compared with
what it does to a document one step at a time.
-/

namespace TreeEditor

section Except

variable {ε ε' α β : Type}

/-- A step that went through hands its value on. -/
@[simp]
theorem ok_bind (a : α) (f : α → Except ε β) : (Except.ok a >>= f) = f a := rfl

/-- A step that failed ends the sequence. -/
@[simp]
theorem error_bind (e : ε) (f : α → Except ε β) : (Except.error e >>= f) = .error e := rfl

/-- A sequence goes through exactly when both of its steps do. -/
theorem bind_eq_ok {x : Except ε α} {f : α → Except ε β} {b : β} :
    (x >>= f) = .ok b ↔ ∃ a, x = .ok a ∧ f a = .ok b := by
  cases x <;> simp

/-- Returning a value is going through with it. -/
@[simp]
theorem pure_eq_ok (a : α) : (pure a : Except ε α) = .ok a := rfl

/-- Throwing is failing. -/
@[simp]
theorem throw_eq_error (e : ε) : (throw e : Except ε α) = .error e := rfl

/-- Rewording a failure changes no success. -/
@[simp]
theorem mapError_ok (f : ε → ε') (a : α) : (Except.ok a).mapError f = .ok a := rfl

/-- Rewording a failure keeps it a failure. -/
@[simp]
theorem mapError_error (f : ε → ε') (e : ε) :
    (Except.error e : Except ε α).mapError f = .error (f e) := rfl

/-- A loop goes through exactly when it does for every item. -/
theorem forM_eq_ok {items : List α} {f : α → Except ε Unit} :
    items.forM f = .ok () ↔ ∀ a ∈ items, f a = .ok () := by
  induction items with
  | nil => simp
  | cons a rest ih =>
    have hstep : (a :: rest).forM f = (f a >>= fun _ => rest.forM f) := rfl
    rw [hstep, List.forall_mem_cons, ← ih]
    cases f a <;> simp

/-- A step for every item goes through exactly when it does for each of them. -/
theorem mapM_eq_ok {items : List α} {f : α → Except ε β} {results : List β} :
    items.mapM f = .ok results ↔ List.Forall₂ (fun a b => f a = .ok b) items results := by
  induction items generalizing results with
  | nil => simp [eq_comm]
  | cons a rest ih =>
    simp only [List.mapM_cons, bind_eq_ok, pure_eq_ok, Except.ok.injEq, ih,
      List.forall₂_cons_left_iff]
    constructor
    · rintro ⟨b, hb, bs, hbs, rfl⟩
      exact ⟨b, bs, hb, hbs, rfl⟩
    · rintro ⟨b, bs, hb, hbs, rfl⟩
      exact ⟨b, hb, bs, hbs, rfl⟩

/-- Steps whose results are changed alike give the changed results. -/
theorem mapM_map_ok {γ : Type} {items : List α} {f : α → Except ε β} {f' : α → Except ε γ}
    {g : β → γ} (h : ∀ a, f' a = (f a).map g) :
    items.mapM f' = (items.mapM f).map (List.map g) := by
  induction items with
  | nil => rfl
  | cons a rest ih =>
    rw [List.mapM_cons, List.mapM_cons, h, ih]
    cases f a with
    | error e => rfl
    | ok b => cases rest.mapM f <;> rfl

/-- Going through a list succeeds when each step does, given what holds of the part done so far. -/
theorem foldlM_ok (items : List α) {f : β → α → Except ε β} {I : List α → β → Prop} {b : β}
    (start : I [] b)
    (step : ∀ done a rest b, items = done ++ a :: rest → I done b →
      ∃ b', f b a = .ok b' ∧ I (done ++ [a]) b') :
    ∃ b', items.foldlM f b = .ok b' ∧ I items b' := by
  have hrest : ∀ rest done b, items = done ++ rest → I done b →
      ∃ b', rest.foldlM f b = .ok b' ∧ I items b' := by
    intro rest
    induction rest with
    | nil =>
      intro done b hitems hI
      rw [List.append_nil] at hitems
      exact ⟨b, rfl, hitems ▸ hI⟩
    | cons a rest ih =>
      intro done b hitems hI
      obtain ⟨b', hb', hI'⟩ := step done a rest b hitems hI
      obtain ⟨b'', hb'', hI''⟩ := ih (done ++ [a]) b' (by simpa using hitems) hI'
      refine ⟨b'', ?_, hI''⟩
      rw [List.foldlM_cons, hb', ok_bind, hb'']
  exact hrest items [] b rfl start

/-- What every step of a loop keeps the loop keeps. -/
theorem rel_of_foldlM {R : β → β → Prop} (hrefl : ∀ b, R b b)
    (htrans : ∀ b b₁ b', R b b₁ → R b₁ b' → R b b') {f : β → α → Except ε β}
    (hstep : ∀ b a b', f b a = .ok b' → R b b') {items : List α} {b b' : β}
    (h : items.foldlM f b = .ok b') : R b b' := by
  induction items generalizing b with
  | nil =>
    cases h
    exact hrefl _
  | cons item rest ih =>
    obtain ⟨b₁, hfirst, hrest⟩ := bind_eq_ok.mp h
    exact htrans b b₁ b' (hstep b item b₁ hfirst) (ih hrest)

/-- The value of a step that went through. -/
@[simp]
theorem toOption_ok (a : α) : (Except.ok a : Except ε α).toOption = some a := rfl

/-- A step that failed has no value. -/
@[simp]
theorem toOption_error (e : ε) : (Except.error e : Except ε α).toOption = none := rfl

/-- A step has a value exactly when it goes through with it. -/
theorem toOption_eq_some {x : Except ε α} {a : α} : x.toOption = some a ↔ x = .ok a := by
  cases x <;> simp

/-- The value of a sequence of two steps. -/
theorem toOption_bind (x : Except ε α) (f : α → Except ε β) :
    (x >>= f).toOption = x.toOption >>= fun a => (f a).toOption := by
  cases x <;> rfl

/-- Related options that are used in related ways give related options. -/
theorem rel_bind {γ δ : Type} {R : α → β → Prop} {S : γ → δ → Prop} {o : Option α} {o' : Option β}
    {f : α → Option γ} {g : β → Option δ} (h : Option.Rel R o o')
    (hf : ∀ a b, R a b → Option.Rel S (f a) (g b)) : Option.Rel S (o >>= f) (o' >>= g) := by
  cases h with
  | none => exact .none
  | some hab => exact hf _ _ hab

/-- What is related to a value is a related value. -/
theorem rel_some_left {R : α → β → Prop} {a : α} {o : Option β} :
    Option.Rel R (some a) o ↔ ∃ b, o = some b ∧ R a b := by
  constructor
  · intro h
    cases h with
    | some hab => exact ⟨_, rfl, hab⟩
  · rintro ⟨b, rfl, hab⟩
    exact .some hab

/-- What a value is related to is a related value. -/
theorem rel_some_right {R : α → β → Prop} {b : β} {o : Option α} :
    Option.Rel R o (some b) ↔ ∃ a, o = some a ∧ R a b := by
  constructor
  · intro h
    cases h with
    | some hab => exact ⟨_, rfl, hab⟩
  · rintro ⟨a, rfl, hab⟩
    exact .some hab

/-- Only nothing is related to nothing. -/
theorem rel_none_left {R : α → β → Prop} {o : Option β} : Option.Rel R none o ↔ o = none := by
  constructor
  · intro h
    cases h
    rfl
  · rintro rfl
    exact .none

/-- Related options have values together. -/
theorem rel_exists {R : α → β → Prop} {o : Option α} {o' : Option β} (h : Option.Rel R o o') :
    (∃ b, o' = some b) ↔ ∃ a, o = some a := by
  cases h <;> simp

/-- Sequences of steps give related values when each step does. -/
theorem rel_step {γ δ ε' : Type} {R : α → β → Prop} {S : γ → δ → Prop} {x : Except ε α}
    {y : Except ε' β} {f : α → Except ε γ} {g : β → Except ε' δ}
    (h : Option.Rel R x.toOption y.toOption)
    (hfg : ∀ a b, R a b → Option.Rel S (f a).toOption (g b).toOption) :
    Option.Rel S (x >>= f).toOption (y >>= g).toOption := by
  rw [toOption_bind, toOption_bind]
  exact rel_bind h hfg

/-- Options related in one way are related in a weaker way. -/
theorem rel_mono {R S : α → β → Prop} {o : Option α} {o' : Option β} (h : Option.Rel R o o')
    (hRS : ∀ a b, R a b → S a b) : Option.Rel S o o' := by
  cases h with
  | none => exact .none
  | some hab => exact .some (hRS _ _ hab)

/-- The values of related steps that go through are related. -/
theorem rel_ok {ε' : Type} {R : α → β → Prop} {x : Except ε α} {y : Except ε' β}
    (h : Option.Rel R x.toOption y.toOption) {a : α} {b : β} (hx : x = .ok a) (hy : y = .ok b) :
    R a b := by
  subst hx hy
  cases h with
  | some hab => exact hab

/-- Related results stay related when they are put into another form. -/
theorem rel_return {γ δ ε' : Type} {R : α → β → Prop} {S : γ → δ → Prop} {x : Except ε α}
    {y : Except ε' β} {f : α → γ} {g : β → δ} (h : Option.Rel R x.toOption y.toOption)
    (hfg : ∀ a b, R a b → S (f a) (g b)) :
    Option.Rel S (x.toOption.map f) (y >>= fun b => pure (g b)).toOption := by
  cases x with
  | error e =>
    cases y with
    | error e' => exact .none
    | ok b => cases h
  | ok a =>
    cases y with
    | error e' => cases h
    | ok b =>
      cases h with
      | some hab => exact .some (hfg a b hab)

end Except

section Failure

variable {α β γ δ : Type}

/-- What is granted goes through. -/
@[simp]
theorem orRefuse_ok (a : α) : orRefuse (.ok a) = .ok a := rfl

/-- What is refused is a refusal. -/
@[simp]
theorem orRefuse_error (reason : Refusal) :
    orRefuse (.error reason : Except Refusal α) = .error (.refused reason) := rfl

/-- What is granted goes through. -/
@[simp]
theorem orBreak_ok (a : α) : orBreak (.ok a) = .ok a := rfl

/-- A reading that has the expected shape is granted. -/
@[simp]
theorem refuseShape_ok (a : α) : refuseShape (.ok a) = .ok a := rfl

/-- A reading that has another shape is refused. -/
@[simp]
theorem refuseShape_error (fault : ShapeError) :
    refuseShape (.error fault : Except ShapeError α) = .error (.shape fault) := rfl

/-- An option with a value goes through. -/
@[simp]
theorem orElseRefuse_some (a : α) (reason : Refusal) : orElseRefuse (some a) reason = .ok a := rfl

/-- An option without a value is a refusal. -/
@[simp]
theorem orElseRefuse_none (reason : Refusal) :
    orElseRefuse (none : Option α) reason = .error (.refused reason) := rfl

/-- A sequence of steps that may be refused is a sequence of requests. -/
theorem orRefuse_bind (x : Except Refusal α) (f : α → Except Refusal β) :
    orRefuse (x >>= f) = orRefuse x >>= fun a => orRefuse (f a) := by
  cases x <;> rfl

/-- Only what is granted goes through. -/
theorem orRefuse_eq_ok {x : Except Refusal α} {a : α} : orRefuse x = .ok a ↔ x = .ok a := by
  cases x <;> simp

/-- Only what is granted goes through. -/
theorem orBreak_eq_ok {x : Except Refusal α} {a : α} : orBreak x = .ok a ↔ x = .ok a := by
  cases x with
  | ok b => simp
  | error reason => cases reason <;> simp [orBreak, Except.mapError]

/-- Only a reading that has the expected shape is granted. -/
theorem refuseShape_eq_ok {x : Except ShapeError α} {a : α} :
    refuseShape x = .ok a ↔ x = .ok a := by
  cases x <;> simp

/-- Only an option with a value goes through. -/
theorem orElseRefuse_eq_ok {o : Option α} {reason : Refusal} {a : α} :
    orElseRefuse o reason = .ok a ↔ o = some a := by
  cases o <;> simp

/-- A request goes through with a related result where a partial function has a value, and is
refused where it has none. -/
def Answers (x : Except Failure α) (o : Option β) (R : α → β → Prop) : Prop :=
  match o with
  | some b => ∃ a, x = .ok a ∧ R a b
  | none => ∃ reason, x = .error (.refused reason)

namespace Answers

variable {R : α → β → Prop} {S : γ → δ → Prop}

/-- A refused request answers a function without a value. -/
theorem refused (reason : Refusal) :
    Answers (.error (.refused reason) : Except Failure α) (none : Option β) R :=
  ⟨reason, rfl⟩

/-- A request that goes through answers a function with a related value. -/
theorem granted {a : α} {b : β} (h : R a b) : Answers (.ok a) (some b) R := ⟨a, rfl, h⟩

/-- Sequences answer sequences step by step. -/
theorem bind {x : Except Failure α} {o : Option β} {f : α → Except Failure γ}
    {g : β → Option δ} (h : Answers x o R)
    (hf : ∀ a b, x = .ok a → o = some b → R a b → Answers (f a) (g b) S) :
    Answers (x >>= f) (o >>= g) S := by
  cases o with
  | none =>
    obtain ⟨reason, hx⟩ := h
    rw [hx]
    exact .refused reason
  | some b =>
    obtain ⟨a, hx, hR⟩ := h
    rw [hx]
    exact hf a b hx rfl hR

/-- A step is taken where its answer has a value, and where it has none there must be nothing to
answer. -/
theorem step {x : Except Failure α} {o : Option β} {f : α → Except Failure γ} {o' : Option δ}
    (h : Answers x o R)
    (hpass : ∀ a b, x = .ok a → o = some b → R a b → Answers (f a) o' S)
    (hfail : o = none → o' = none) : Answers (x >>= f) o' S := by
  cases o with
  | none =>
    obtain ⟨reason, hx⟩ := h
    rw [hx, hfail rfl]
    exact .refused reason
  | some b =>
    obtain ⟨a, hx, hR⟩ := h
    rw [hx]
    exact hpass a b hx rfl hR

/-- A weaker relation between the results will do. -/
theorem mono {x : Except Failure α} {o : Option β} {R' : α → β → Prop} (h : Answers x o R)
    (hR : ∀ a b, R a b → R' a b) : Answers x o R' := by
  cases o with
  | none => exact h
  | some b =>
    obtain ⟨a, hx, hab⟩ := h
    exact ⟨a, hx, hR a b hab⟩

/-- What goes through answers a value. -/
theorem of_eq_ok {x : Except Failure α} {o : Option β} (h : Answers x o R) {a : α}
    (hx : x = .ok a) : ∃ b, o = some b ∧ R a b := by
  cases o with
  | none =>
    obtain ⟨reason, hrefused⟩ := h
    rw [hx] at hrefused
    cases hrefused
  | some b =>
    obtain ⟨a', hgranted, hR⟩ := h
    rw [hx] at hgranted
    cases hgranted
    exact ⟨b, rfl, hR⟩

/-- What fails answers nothing, and is refused. -/
theorem of_eq_error {x : Except Failure α} {o : Option β} (h : Answers x o R) {failure : Failure}
    (hx : x = .error failure) : o = none ∧ ∃ reason, failure = .refused reason := by
  cases o with
  | none =>
    obtain ⟨reason, hrefused⟩ := h
    rw [hx] at hrefused
    cases hrefused
    exact ⟨rfl, reason, rfl⟩
  | some b =>
    obtain ⟨a', hgranted, -⟩ := h
    rw [hx] at hgranted
    cases hgranted

/-- A step that may be refused answers a related option. -/
theorem ofRel {Q : β → α → Prop} {x : Except Refusal α} {o : Option β}
    (h : Option.Rel Q o x.toOption) : Answers (orRefuse x) o fun a b => Q b a := by
  cases x with
  | ok a =>
    cases h with
    | some hab => exact .granted hab
  | error reason =>
    cases h
    exact .refused reason

/-- A check guards what comes after it: past the check its condition holds, and where the condition
fails there must be nothing to answer. -/
theorem guard {x : Except Refusal Unit} {p : Prop} {f : Unit → Except Failure α} {o : Option β}
    (h : x = .ok () ↔ p) (hpass : p → Answers (f ()) o R) (hfail : ¬ p → o = none) :
    Answers (orRefuse x >>= f) o R := by
  cases x with
  | ok _ => exact hpass (h.mp rfl)
  | error reason =>
    rw [hfail fun hp => by cases h.mpr hp]
    exact .refused reason

/-- A condition on which a request is refused: where it fails to hold the request goes on, and where
it holds there must be nothing to answer. -/
theorem refuseIf {p : Prop} [Decidable p] {reason : Refusal} {rest : PUnit → Except Failure α}
    {x : Except Failure α} {o : Option β} (hrefuse : p → o = none) (hpass : ¬ p → Answers x o R) :
    Answers (if p then throw (.refused reason) >>= rest else x) o R := by
  by_cases hp : p
  · rw [if_pos hp, hrefuse hp]
    exact .refused reason
  · rw [if_neg hp]
    exact hpass hp

end Answers

/-- What a request that goes through has for a result satisfies a condition. The request may be
refused, but it does not break down. -/
def Grants (x : Except Failure α) (p : α → Prop) : Prop :=
  match x with
  | .ok a => p a
  | .error (.refused _) => True
  | .error (.broken _) => False

namespace Grants

variable {p q : α → Prop} {x : Except Failure α}

/-- A result that satisfies the condition. -/
theorem granted {a : α} (h : p a) : Grants (.ok a) p := h

/-- A refusal satisfies any condition. -/
theorem refused (reason : Refusal) : Grants (.error (.refused reason)) p := trivial

/-- A step that may be refused does not break down. -/
theorem ofRefusal {y : Except Refusal α} (h : ∀ a, y = .ok a → p a) : Grants (orRefuse y) p := by
  cases y with
  | ok a => exact h a rfl
  | error reason => exact trivial

/-- An option without a value is a refusal. -/
theorem ofOption {o : Option α} {reason : Refusal} (h : ∀ a, o = some a → p a) :
    Grants (orElseRefuse o reason) p := by
  cases o with
  | some a => exact h a rfl
  | none => exact trivial

/-- Sequences satisfy a condition when their last step does. -/
theorem bind {r : β → Prop} {f : α → Except Failure β} (h : Grants x p)
    (hf : ∀ a, x = .ok a → p a → Grants (f a) r) : Grants (x >>= f) r := by
  cases x with
  | ok a => exact hf a rfl h
  | error failure =>
    cases failure with
    | refused reason => exact trivial
    | broken breach => exact h.elim

/-- A weaker condition will do. -/
theorem mono (h : Grants x p) (hpq : ∀ a, p a → q a) : Grants x q := by
  cases x with
  | ok a => exact hpq a h
  | error failure => cases failure <;> exact h

/-- The result of a request that went through. -/
theorem of_eq_ok {a : α} (h : Grants x p) (hx : x = .ok a) : p a := by
  rw [hx] at h
  exact h

end Grants

end Failure

end TreeEditor
