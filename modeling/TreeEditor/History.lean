import TreeEditor.Edit.Group

/-!
# History

The groups that can be undone and those that can be redone, each list with the newest group in
front, and the batch that is being collected, if one is open. A new group makes all undone groups
unreachable; when there are more groups than the limit allows the oldest one is forgotten. The
history makes no edits itself.
-/

namespace TreeEditor

/-- The edits that are being collected into one group. -/
structure Batch where
  edits : List Edit
  refresh : Option Path
  description : Option String

namespace Batch

/-- The group of the collected edits, if there are any. -/
def group? (batch : Batch) : Option Group :=
  Group.ofList? batch.edits batch.refresh batch.description

/-- A batch with one more edit; the first node named to be announced again is kept. -/
def record (edit : Edit) (refresh : Option Path) (batch : Batch) : Batch :=
  { batch with edits := batch.edits ++ [edit], refresh := batch.refresh <|> refresh }

end Batch

/-- Groups that can be undone and redone. -/
structure History where
  done : List Group
  undone : List Group
  /-- How many groups can be undone; zero sets no limit. -/
  limit : Nat
  batch : Option Batch

namespace History

/-- A history without groups. -/
def withLimit (limit : Nat) : History := ⟨[], [], limit, none⟩

/-- A batch is open. -/
def inBatch (history : History) : Bool := history.batch.isSome

/-- Opens a batch, unless one is open. -/
def beginBatch (description : Option String) (history : History) : Except Refusal History :=
  match history.batch with
  | some _ => .error .batchOpen
  | none => .ok { history with batch := some ⟨[], none, description⟩ }

/-- Closes the open batch and hands it over. -/
def takeBatch (history : History) : Except Refusal (Batch × History) :=
  match history.batch with
  | some batch => .ok (batch, { history with batch := none })
  | none => .error .noBatch

/-- A list of groups without the oldest one when it is longer than the limit. -/
def trim (limit : Nat) (groups : List Group) : List Group :=
  if 0 < limit ∧ limit < groups.length then groups.dropLast else groups

/-- Adds a group that was just made. -/
def push (group : Group) (history : History) : History :=
  { history with done := trim history.limit (group :: history.done), undone := [] }

/-- Takes the newest group that can be undone. -/
def popDone (history : History) : Option (Group × History) :=
  match history.done with
  | [] => none
  | group :: rest => some (group, { history with done := rest })

/-- Takes the group undone last. -/
def popUndone (history : History) : Option (Group × History) :=
  match history.undone with
  | [] => none
  | group :: rest => some (group, { history with undone := rest })

/-- Adds a group to those that can be undone and leaves the undone ones alone. -/
def pushDone (group : Group) (history : History) : History :=
  { history with done := group :: history.done }

/-- Adds a group to the undone ones. -/
def pushUndone (group : Group) (history : History) : History :=
  { history with undone := group :: history.undone }

/-- Forgets all groups and the open batch. -/
def clear (history : History) : History :=
  { history with done := [], undone := [], batch := none }

/-- The description of the group to be undone next. -/
def undoDescription (history : History) : Option String :=
  history.done.head?.bind Group.description

/-- The description of the group to be redone next. -/
def redoDescription (history : History) : Option String :=
  history.undone.head?.bind Group.description

end History

end TreeEditor
