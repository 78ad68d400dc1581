import TreeEditor.Editor.Request
import TreeEditor.Store.Replay

/-!
# Observing an editor

An observer that joins late is told of the states there are, and one that leaves is told of their
removal. Observers are called while something is done with the editor. An editor that is shared
with them says no for as long as it is in use: while it is changed it can be neither read nor
changed, and while it is read it cannot be changed.
-/

namespace TreeEditor

/-- The events that tell a new observer of all states. -/
def Editor.attachEvents (editor : Editor) : Except Failure (List Event) :=
  editor.store.creationEvents editor.root

/-- The events that tell a leaving observer of the removal of all states. -/
def Editor.detachEvents (editor : Editor) : Except Failure (List Event) :=
  editor.store.removalEvents editor.root

/-- What is being done with a shared editor. -/
inductive Access where
  | idle
  | reading
  | changing
deriving DecidableEq

/-- An editor that several parties use. -/
structure Shared where
  editor : Editor
  access : Access

namespace Shared

/-- An editor that is not in use. -/
def idle (editor : Editor) : Shared := ⟨editor, .idle⟩

/-- Reads the editor. -/
def read {α : Type} (question : Editor → α) (shared : Shared) : Except Refusal α :=
  match shared.access with
  | .changing => .error .reentrant
  | _ => .ok (question shared.editor)

/-- Changes the editor. -/
def change {α : Type} (request : Editor → Outcome α) (shared : Shared) :
    Except Failure α × Shared :=
  match shared.access with
  | .idle =>
    let (answer, editor) := request shared.editor
    (answer, { shared with editor })
  | _ => (.error (.refused .reentrant), shared)

end Shared

end TreeEditor
