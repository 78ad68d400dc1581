import TreeEditor.Violation

/-!
# Failures

A request has no answer when it is refused, which is ordinary, or when the editor breaks down: then
the states no longer agree with the document or with each other. No request is meant to bring a
breakdown about.
-/

namespace TreeEditor

/-- A breakdown: what must hold of the states does not. -/
inductive Breach where
  | notLive (state : Handle)
  | removedTwice (state : Handle)
  /-- An edit that went through could not be taken back. -/
  | revertFailed (edit : String) (reason : Refusal)
  | violated (violation : Violation)
  /-- The document has no such position although the states have it. -/
  | beyondDocument (position count : Nat)
  /-- Following parents or children came to no end. -/
  | endless (state : Handle)

/-- The text of a breakdown. -/
def Breach.message : Breach → String
  | notLive state => s!"State {state} is referenced but not live"
  | removedTwice state => s!"State {state} was removed twice"
  | revertFailed edit reason => s!"Reverting {edit} failed: " ++ reason.message
  | violated violation => "State tree invariant violated: " ++ violation.message
  | beyondDocument position count =>
    s!"index out of bounds: the len is {count} but the index is {position}"
  | endless state => s!"State {state} has no end of relatives"

/-- Why a request has no answer. -/
inductive Failure where
  | refused (reason : Refusal)
  | broken (breach : Breach)

/-- A refusal as a failure. -/
def orRefuse {α : Type} (result : Except Refusal α) : Except Failure α :=
  result.mapError .refused

/-- A refusal where the states have allowed what is done to the document: a position beyond the
document is a breakdown. -/
def orBreak {α : Type} (result : Except Refusal α) : Except Failure α :=
  result.mapError fun
    | .outOfRange position count => .broken (.beyondDocument position count)
    | reason => .refused reason

/-- The value of an option, or a refusal. -/
def orElseRefuse {α : Type} (value : Option α) (reason : Refusal) : Except Failure α :=
  match value with
  | some a => .ok a
  | none => .error (.refused reason)

instance : MonadLift (Except Refusal) (Except Failure) := ⟨orRefuse⟩

instance : MonadLift (Except ShapeError) (Except Refusal) := ⟨refuseShape⟩

end TreeEditor
