import TreeEditor.Proofs.Outcome
import TreeEditor.Table

/-!
# Laws of tables

Setting a key changes the value of that key alone (`get?_set`), keeps the place of a key that is
present (`keys_set_of_mem`) and adds a new one at the end (`set_of_notMem`). In a table whose keys
are distinct the entries are exactly the values that its keys have (`mem_iff_get?`). Entries of
different keys are the table that they build (`ofList_eq_self`).
-/

namespace TreeEditor.Table

variable {α β γ : Type} [DecidableEq α]

/-- Setting a key changes the value of that key alone. -/
theorem get?_set (key other : α) (value : β) (table : List (α × β)) :
    get? other (set key value table) = if other = key then some value else get? other table := by
  by_cases h : other = key
  · rw [if_pos h, h, get?_set_same]
  · rw [if_neg h, get?_set_other value table h]

/-- Erasing a key takes its value away and no other. -/
theorem get?_erase (key other : α) (table : List (α × β)) :
    get? other (erase key table) = if other = key then none else get? other table := by
  by_cases h : other = key
  · rw [if_pos h, h, get?_erase_same]
  · rw [if_neg h, get?_erase_other table h]

/-- The value of a key is that of an entry. -/
theorem mem_of_get? {key : α} {value : β} {table : List (α × β)}
    (h : get? key table = some value) : (key, value) ∈ table := by
  induction table with
  | nil => cases h
  | cons entry rest ih =>
    obtain ⟨k, v⟩ := entry
    rw [get?] at h
    split at h
    · rename_i hk
      cases h
      rw [hk]
      exact List.mem_cons_self
    · exact List.mem_cons_of_mem _ (ih h)

/-- A key has a value exactly when it is one of the keys. -/
theorem get?_eq_none_iff {key : α} {table : List (α × β)} :
    get? key table = none ↔ key ∉ keys table := by
  induction table with
  | nil => simp [get?, keys]
  | cons entry rest ih =>
    obtain ⟨k, v⟩ := entry
    have hkeys : keys ((k, v) :: rest) = k :: keys rest := rfl
    rw [get?, hkeys, List.mem_cons, not_or, ← ih]
    by_cases hk : k = key
    · simp [hk]
    · simp [hk, Ne.symm hk]

/-- Where keys are distinct, the entries are exactly the values that the keys have. -/
theorem mem_iff_get? {key : α} {value : β} {table : List (α × β)} (h : (keys table).Nodup) :
    (key, value) ∈ table ↔ get? key table = some value := by
  refine ⟨fun hmem => ?_, mem_of_get?⟩
  induction table with
  | nil => cases hmem
  | cons entry rest ih =>
    obtain ⟨k, v⟩ := entry
    have hd : k ∉ keys rest ∧ (keys rest).Nodup := List.nodup_cons.mp h
    rw [get?]
    rcases List.mem_cons.mp hmem with heq | hrest
    · cases heq
      exact if_pos rfl
    · have hk : k ≠ key := by
        rintro rfl
        exact hd.1 (List.mem_map_of_mem hrest)
      rw [if_neg hk]
      exact ih hd.2 hrest

/-- Where keys are distinct, the order of the entries does not matter for the values. -/
theorem get?_perm {table table' : List (α × β)} (h : table.Perm table') (hkeys : (keys table).Nodup)
    (key : α) : get? key table = get? key table' := by
  have hkeys' : (keys table').Nodup := (h.map Prod.fst).nodup_iff.mp hkeys
  ext value
  rw [← mem_iff_get? hkeys, ← mem_iff_get? hkeys', h.mem_iff]

omit [DecidableEq α] in
/-- The entries of a table can be put in the order that its keys have in another table. -/
theorem exists_ordered {table : List (α × β)} {other : List (α × γ)}
    (h : (keys table).Perm (keys other)) :
    ∃ ordered, table.Perm ordered ∧ List.Forall₂ (fun e f => e.1 = f.1) ordered other := by
  have hkeys : List.Forall₂ (fun e key => e.1 = key) table (keys table) :=
    List.forall₂_map_right_iff.mpr (List.forall₂_same.mpr fun _ _ => rfl)
  have hcomp :
      Relation.Comp List.Perm (List.Forall₂ fun e key => e.1 = key) table (keys other) := by
    rw [← List.forall₂_comp_perm_eq_perm_comp_forall₂]
    exact ⟨_, hkeys, h⟩
  obtain ⟨ordered, horder, hordered⟩ := hcomp
  exact ⟨ordered, horder, List.forall₂_map_right_iff.mp hordered⟩

/-- Setting a key that is present keeps the keys and their order. -/
theorem keys_set_of_mem {key : α} {table : List (α × β)} (h : key ∈ keys table) (value : β) :
    keys (set key value table) = keys table := by
  induction table with
  | nil => cases h
  | cons entry rest ih =>
    obtain ⟨k, v⟩ := entry
    by_cases hk : k = key
    · simp [set, hk, keys]
    · have hrest : key ∈ keys rest := (List.mem_cons.mp h).resolve_left (Ne.symm hk)
      have hset : set key value ((k, v) :: rest) = (k, v) :: set key value rest := by
        simp [set, hk]
      rw [hset]
      exact congrArg (k :: ·) (ih hrest)

/-- Setting a key leaves the entries before its own alone. -/
theorem set_append {key : α} {done : List (α × β)} (h : key ∉ keys done) (value : β)
    (rest : List (α × β)) : set key value (done ++ rest) = done ++ set key value rest := by
  induction done with
  | nil => rfl
  | cons entry done ih =>
    obtain ⟨k, v⟩ := entry
    have hd : key ≠ k ∧ key ∉ keys done := by
      simpa [keys] using h
    rw [List.cons_append, set, if_neg (Ne.symm hd.1), ih hd.2, List.cons_append]

/-- Setting a key that is not present adds an entry at the end. -/
theorem set_of_notMem {key : α} {table : List (α × β)} (h : key ∉ keys table) (value : β) :
    set key value table = table ++ [(key, value)] := by
  have hset : set key value (table ++ []) = table ++ set key value [] := set_append h value []
  rwa [List.append_nil] at hset

/-- Setting a key keeps the keys distinct. -/
theorem nodup_keys_set {key : α} {table : List (α × β)} (h : (keys table).Nodup) (value : β) :
    (keys (set key value table)).Nodup := by
  by_cases hmem : key ∈ keys table
  · rw [keys_set_of_mem hmem]
    exact h
  · rw [set_of_notMem hmem]
    simpa [keys] using List.Nodup.append h (List.nodup_singleton key) (by simpa using hmem)

/-- Erasing a key keeps the keys distinct. -/
theorem nodup_keys_erase {table : List (α × β)} (h : (keys table).Nodup) (key : α) :
    (keys (erase key table)).Nodup :=
  h.sublist (List.filter_sublist.map Prod.fst)

/-- Setting a key to the value that it has changes nothing. -/
theorem set_get? {key : α} {value : β} {table : List (α × β)}
    (h : get? key table = some value) : set key value table = table := by
  induction table with
  | nil => cases h
  | cons entry rest ih =>
    obtain ⟨k, v⟩ := entry
    rw [get?] at h
    rw [set]
    split at h
    · rename_i hk
      cases h
      rw [if_pos hk]
    · rename_i hk
      rw [if_neg hk, ih h]

/-- Of two values set for one key the second remains. -/
theorem set_set (key : α) (value value' : β) (table : List (α × β)) :
    set key value' (set key value table) = set key value' table := by
  induction table with
  | nil => simp [set]
  | cons entry rest ih =>
    obtain ⟨k, v⟩ := entry
    by_cases hk : k = key
    · simp [set, hk]
    · simp [set, hk, ih]

/-- The entries after setting a key are the new one and some of the old ones. -/
theorem mem_set {key : α} {value : β} {table : List (α × β)} {entry : α × β}
    (h : entry ∈ set key value table) : entry = (key, value) ∨ entry ∈ table := by
  induction table with
  | nil => simpa [set] using h
  | cons first rest ih =>
    obtain ⟨k, v⟩ := first
    rw [set] at h
    split at h
    · rename_i hk
      rcases List.mem_cons.mp h with heq | hrest
      · exact .inl (by rw [heq, hk])
      · exact .inr (List.mem_cons_of_mem _ hrest)
    · rcases List.mem_cons.mp h with heq | hrest
      · exact .inr (by rw [heq]; exact List.mem_cons_self)
      · exact (ih hrest).imp_right (List.mem_cons_of_mem _)

/-- An entry of a table whose value is overwritten if it has a given key. -/
def overwrite (key : α) (value : β) (entry : α × β) : α × β :=
  if entry.1 = key then (entry.1, value) else entry

/-- Overwriting a value keeps the key. -/
@[simp]
theorem overwrite_fst (key : α) (value : β) (entry : α × β) :
    (overwrite key value entry).1 = entry.1 := by
  unfold overwrite
  split <;> rfl

/-- Setting a key that is present overwrites its entry, where keys are distinct. -/
theorem set_eq_map_overwrite {key : α} {table : List (α × β)} (h : (keys table).Nodup)
    (hmem : key ∈ keys table) (value : β) :
    set key value table = table.map (overwrite key value) := by
  induction table with
  | nil => cases hmem
  | cons entry rest ih =>
    obtain ⟨k, v⟩ := entry
    have hd : k ∉ keys rest ∧ (keys rest).Nodup := List.nodup_cons.mp h
    by_cases hk : k = key
    · have hrest : rest.map (overwrite key value) = rest := by
        refine (List.map_congr_left fun e he => ?_).trans (List.map_id rest)
        refine if_neg fun heq => hd.1 ?_
        rw [hk, ← heq]
        exact List.mem_map_of_mem he
      rw [set, if_pos hk, List.map_cons, hrest]
      simp [overwrite, hk]
    · have hrest : key ∈ keys rest := (List.mem_cons.mp hmem).resolve_left (Ne.symm hk)
      simp [set, overwrite, hk, ih hd.2 hrest]

/-- The value under a key in a table that is overwritten. -/
theorem get?_map_overwrite (key other : α) (value : β) (table : List (α × β)) :
    get? other (table.map (overwrite key value)) =
      if other = key then (get? key table).map fun _ => value else get? other table := by
  induction table with
  | nil => simp [get?]
  | cons entry rest ih =>
    obtain ⟨k, v⟩ := entry
    by_cases hk : k = key
    · subst hk
      by_cases ho : other = k
      · simp [overwrite, get?, ho]
      · simp [overwrite, get?, ho, Ne.symm ho, ih]
    · by_cases ho : other = key
      · subst ho
        simp [overwrite, get?, hk, ih]
      · simp [overwrite, get?, hk, ho, ih]

/-- Setting a value and then taking a function of all values is setting that of the value. -/
theorem map_set (f : β → γ) (key : α) (value : β) (table : List (α × β)) :
    (set key value table).map (fun entry => (entry.1, f entry.2)) =
      set key (f value) (table.map fun entry => (entry.1, f entry.2)) := by
  induction table with
  | nil => rfl
  | cons entry rest ih =>
    rw [set, List.map_cons, set]
    split
    · rfl
    · rw [List.map_cons, ih]

/-- Looking up commutes with a change of all values. -/
theorem get?_map (f : β → γ) (key : α) (table : List (α × β)) :
    get? key (table.map fun entry => (entry.1, f entry.2)) = (get? key table).map f := by
  induction table with
  | nil => rfl
  | cons entry rest ih =>
    obtain ⟨k, v⟩ := entry
    rw [List.map_cons, get?, get?, ih]
    split <;> rfl

/-- Setting entries of different new keys adds them at the end. -/
theorem foldl_set_eq_append {table entries : List (α × β)} (h : (keys (table ++ entries)).Nodup) :
    entries.foldl (fun table entry => set entry.1 entry.2 table) table = table ++ entries := by
  induction entries generalizing table with
  | nil => rw [List.foldl_nil, List.append_nil]
  | cons entry entries ih =>
    have hnew : entry.1 ∉ keys table := by
      rw [keys, List.map_append, List.map_cons] at h
      exact fun hmem => (List.nodup_append.mp h).2.2 _ hmem _ List.mem_cons_self rfl
    rw [List.append_cons] at h
    rw [List.foldl_cons, set_of_notMem hnew, ih h, ← List.append_cons]

/-- Entries of different keys are the table that they build. -/
theorem ofList_eq_self {entries : List (α × β)} (h : (keys entries).Nodup) :
    ofList entries = entries :=
  foldl_set_eq_append h

/-- Setting entries one after the other keeps the keys distinct, and adds none but these entries. -/
theorem foldl_set (entries : List (α × β)) {table : List (α × β)} (h : (keys table).Nodup) :
    (keys (entries.foldl (fun table entry => set entry.1 entry.2 table) table)).Nodup ∧
      ∀ entry ∈ entries.foldl (fun table entry => set entry.1 entry.2 table) table,
        entry ∈ table ∨ entry ∈ entries := by
  induction entries generalizing table with
  | nil => exact ⟨h, fun _ => .inl⟩
  | cons first entries ih =>
    have hfirst : (keys (set first.1 first.2 table)).Nodup := nodup_keys_set h first.2
    obtain ⟨hnodup, hmem⟩ := ih hfirst
    refine ⟨hnodup, fun entry hentry => ?_⟩
    rcases hmem entry hentry with hold | hnew
    · rcases mem_set hold with heq | hold
      · exact .inr (heq ▸ List.mem_cons_self)
      · exact .inl hold
    · exact .inr (List.mem_cons_of_mem _ hnew)

end TreeEditor.Table
