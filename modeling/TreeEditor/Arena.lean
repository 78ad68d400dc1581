/-!
# Arena

An arena stores values under handles. A handle names a cell and the generation of what is in it;
taking a value out leaves the cell empty, and the next value that the cell gets is of the next
generation, so that a handle to the removed value never names another one. Empty cells are used
again, the one emptied last first. Generations are counted in 32 bits.
-/

namespace TreeEditor

/-- A stable name of a stored value. -/
structure Handle where
  index : Nat
  generation : UInt32
deriving DecidableEq, Inhabited

/-- A handle as text: its cell and its generation. -/
def Handle.text (handle : Handle) : String :=
  s!"#{handle.index}v{handle.generation.toNat}"

instance : ToString Handle := ⟨Handle.text⟩

/-- A cell of an arena. -/
structure Cell (α : Type) where
  generation : UInt32
  value : Option α

/-- Values under handles. -/
structure Arena (α : Type) where
  cells : List (Cell α)
  /-- The empty cells, the one emptied last in front. -/
  free : List Nat
  /-- The number of values, which is counted along. -/
  size : Nat

namespace Arena

variable {α : Type}

/-- An arena without cells. -/
def empty : Arena α := ⟨[], [], 0⟩

instance : Inhabited (Arena α) := ⟨empty⟩

/-- The generation of a cell. -/
def generationAt (arena : Arena α) (index : Nat) : UInt32 :=
  (arena.cells[index]?.map Cell.generation).getD 0

/-- Stores a value: in the cell emptied last, or else in a new cell. -/
def insert (arena : Arena α) (value : α) : Handle × Arena α :=
  let size := arena.size + 1
  match arena.free with
  | [] => (⟨arena.cells.length, 0⟩, ⟨arena.cells ++ [⟨0, some value⟩], [], size⟩)
  | index :: free =>
    let generation := arena.generationAt index + 1
    (⟨index, generation⟩, ⟨arena.cells.set index ⟨generation, some value⟩, free, size⟩)

/-- The value that a handle names. -/
def get? (arena : Arena α) (handle : Handle) : Option α := do
  let cell ← arena.cells[handle.index]?
  if cell.generation = handle.generation then cell.value else none

/-- Takes the value out that a handle names. -/
def remove (arena : Arena α) (handle : Handle) : Option (α × Arena α) := do
  let value ← arena.get? handle
  return (value,
    ⟨arena.cells.set handle.index ⟨handle.generation, none⟩, handle.index :: arena.free,
      arena.size - 1⟩)

/-- Changes the value that a handle names, if there is one. -/
def modify (arena : Arena α) (handle : Handle) (change : α → α) : Arena α :=
  match arena.get? handle with
  | none => arena
  | some value =>
    { arena with
      cells := arena.cells.set handle.index ⟨handle.generation, some (change value)⟩ }

/-- A handle named a value that has been taken out. -/
def isStale (arena : Arena α) (handle : Handle) : Bool :=
  match arena.cells[handle.index]? with
  | none => false
  | some cell =>
    handle.generation < cell.generation ||
      (handle.generation = cell.generation && cell.value.isNone)

/-- The values with their handles in the order of the cells. -/
def toList (arena : Arena α) : List (Handle × α) :=
  arena.cells.zipIdx.filterMap fun entry =>
    entry.1.value.map fun value => (⟨entry.2, entry.1.generation⟩, value)

end Arena

end TreeEditor
