import TreeEditor.Refusal

/-!
# Positions in a sequence

Inserting, removing and moving one item of a list, with the bounds that each of them keeps. The
functions do not look at the items, so they act alike on the nodes of a document and on the handles
of the states that stand for them.
-/

namespace TreeEditor

/-- A position is that of an item. -/
def checkExisting (position count : Nat) : Except Refusal Unit :=
  if position < count then .ok () else .error (.outOfRange position count)

/-- A position is one where an item can be inserted: that of an item, or the end. -/
def checkInsertion (position count : Nat) : Except Refusal Unit :=
  if position ≤ count then .ok () else .error (.outOfRange position count)

/-- The position that an item arrives at when it is moved by a distance. -/
def moveTarget (position : Nat) (delta : Int) (count : Nat) : Except Refusal Nat :=
  if position < count then
    let target := signed position + delta
    if 0 ≤ target ∧ target < signed count then .ok target.toNat
    else .error (.badMove position delta count)
  else
    .error (.outOfRange position count)

section

variable {α : Type}

/-- The item at a position. -/
def itemAt (position : Nat) (items : List α) : Except Refusal α :=
  match items[position]? with
  | some item => .ok item
  | none => .error (.outOfRange position items.length)

/-- A list with an item inserted. -/
def insertItem (position : Nat) (item : α) (items : List α) : Except Refusal (List α) := do
  checkInsertion position items.length
  return items.insertIdx position item

/-- An item and the list without it. -/
def removeItem (position : Nat) (items : List α) : Except Refusal (α × List α) := do
  return (← itemAt position items, items.eraseIdx position)

/-- The position that an item was moved to, and the list with the item there. -/
def moveItem (position : Nat) (delta : Int) (items : List α) : Except Refusal (Nat × List α) := do
  let target ← moveTarget position delta items.length
  let item ← itemAt position items
  return (target, (items.eraseIdx position).insertIdx target item)

end

end TreeEditor
