/-!
# Tables

A table is a list of entries in which each key stands once, in the order in which the keys were
first set. Setting a key that is present keeps its place and changes its value, so the order of a
table is the order in which its keys were declared.
-/

namespace TreeEditor

/-- Entries by key, in order of first appearance. -/
abbrev Table (α β : Type) := List (α × β)

namespace Table

variable {α β : Type} [DecidableEq α]

/-- The value under a key. -/
def get? (key : α) : List (α × β) → Option β
  | [] => none
  | (k, v) :: rest => if k = key then some v else get? key rest

/-- A table with one value set: in place when the key is present, at the end otherwise. -/
def set (key : α) (value : β) : List (α × β) → List (α × β)
  | [] => [(key, value)]
  | (k, v) :: rest => if k = key then (k, value) :: rest else (k, v) :: set key value rest

/-- A table without a key. -/
def erase (key : α) (table : List (α × β)) : List (α × β) :=
  table.filter fun entry => entry.1 ≠ key

/-- The table that setting the entries one after the other builds. -/
def ofList (entries : List (α × β)) : List (α × β) :=
  entries.foldl (fun table entry => set entry.1 entry.2 table) []

/-- The keys in order. -/
def keys (table : List (α × β)) : List α :=
  table.map Prod.fst

theorem get?_set_same (key : α) (value : β) (table : List (α × β)) :
    get? key (set key value table) = some value := by
  induction table with
  | nil => simp [set, get?]
  | cons entry rest ih =>
    obtain ⟨k, v⟩ := entry
    by_cases h : k = key <;> simp [set, get?, h, ih]

theorem get?_set_other {key other : α} (value : β) (table : List (α × β)) (h : other ≠ key) :
    get? other (set key value table) = get? other table := by
  induction table with
  | nil => simp [set, get?, Ne.symm h]
  | cons entry rest ih =>
    obtain ⟨k, v⟩ := entry
    by_cases hk : k = key
    · subst hk
      simp [set, get?, Ne.symm h]
    · simp only [set, hk, if_false, get?]
      split
      · rfl
      · exact ih

theorem get?_erase_same (key : α) (table : List (α × β)) : get? key (erase key table) = none := by
  induction table with
  | nil => rfl
  | cons entry rest ih =>
    obtain ⟨k, v⟩ := entry
    by_cases h : k = key
    · simpa [erase, h] using ih
    · simpa [erase, get?, h] using ih

theorem get?_erase_other {key other : α} (table : List (α × β)) (h : other ≠ key) :
    get? other (erase key table) = get? other table := by
  induction table with
  | nil => rfl
  | cons entry rest ih =>
    obtain ⟨k, v⟩ := entry
    by_cases hk : k = key
    · subst hk
      simpa [erase, get?, Ne.symm h] using ih
    · have hkept : erase key ((k, v) :: rest) = (k, v) :: erase key rest := by simp [erase, hk]
      rw [hkept, get?, get?, ih]

end Table

end TreeEditor
