import TreeEditor.Proofs.Outcome
import TreeEditor.Arena

/-!
# Laws of arenas

In a sound arena the free list holds exactly the empty cells, and the size is the number of the
others. Then a new value gets a handle that names nothing so far (`Arena.get?_insert_handle`), and
storing, changing and taking out a value changes what one handle names and no other. The handles in
use are a list without repetitions, as long as the size says (`Arena.length_handles`).
-/

namespace TreeEditor.Arena

variable {α : Type} {arena arena' : Arena α} {handle other : Handle} {value : α}

/-- The number of cells with a value. -/
def occupied (arena : Arena α) : Nat := arena.cells.countP fun cell => cell.value.isSome

/-- The free list holds exactly the empty cells, each once, and the size counts the others. -/
structure Sound (arena : Arena α) : Prop where
  nodup : arena.free.Nodup
  mem_free : ∀ index, index ∈ arena.free ↔
    ∃ cell, arena.cells[index]? = some cell ∧ cell.value = none
  size_eq : arena.size = arena.occupied

/-- A handle names a value when its cell is of its generation and holds it. -/
theorem get?_eq_some :
    arena.get? handle = some value ↔
      arena.cells[handle.index]? = some ⟨handle.generation, some value⟩ := by
  unfold get?
  simp only [Option.bind_eq_bind, Option.bind_eq_some_iff, Option.ite_none_right_eq_some]
  constructor
  · rintro ⟨⟨generation, content⟩, hcell, rfl, rfl⟩
    exact hcell
  · intro hcell
    exact ⟨_, hcell, rfl, rfl⟩

/-- A handle names the content of its cell, in the generation of the cell. -/
theorem get?_of_cell (handle : Handle) {c : Cell α} (h : arena.cells[handle.index]? = some c) :
    arena.get? handle = if c.generation = handle.generation then c.value else none := by
  rw [get?, h]
  rfl

/-- The empty arena is sound. -/
theorem sound_empty : (empty : Arena α).Sound :=
  ⟨List.nodup_nil, fun index => by simp [empty], rfl⟩

/-- In the empty arena no handle names a value. -/
theorem get?_empty (handle : Handle) : (empty : Arena α).get? handle = none := by
  simp [get?, empty]

/-- Setting a cell changes the number of cells with a value by what it had and what it gets. -/
theorem countP_set {index : Nat} {cell : Cell α} (h : arena.cells[index]? = some cell)
    (cell' : Cell α) :
    (arena.cells.set index cell').countP (fun cell => cell.value.isSome) +
        (if cell.value.isSome then 1 else 0) =
      arena.occupied + if cell'.value.isSome then 1 else 0 := by
  obtain ⟨hlt, rfl⟩ := List.getElem?_eq_some_iff.mp h
  have hpos : (if arena.cells[index].value.isSome then 1 else 0) ≤ arena.occupied := by
    split
    · exact List.countP_pos_iff.mpr ⟨_, List.getElem_mem hlt, ‹_›⟩
    · exact Nat.zero_le _
  rw [List.countP_set hlt]
  unfold occupied at hpos ⊢
  omega

/-! ## Storing a value -/

/-- The handle of a new value names nothing before. -/
theorem get?_insert_handle (h : arena.Sound) (value : α) :
    arena.get? (arena.insert value).1 = none := by
  unfold insert
  split
  · simp [get?]
  · rename_i index free hfree
    obtain ⟨cell, hcell, hnone⟩ := (h.mem_free index).mp (by simp [hfree])
    rw [get?_of_cell _ hcell, hnone, ite_self]

/-- Storing a value changes what its handle names and no other. -/
theorem get?_insert (h : arena.Sound) (value : α) (other : Handle) :
    (arena.insert value).2.get? other =
      if other = (arena.insert value).1 then some value else arena.get? other := by
  obtain ⟨index, generation⟩ := other
  unfold insert
  split
  · -- No cell is free, so the value goes into a new cell at the end.
    simp only [get?, Handle.mk.injEq]
    by_cases hlt : index < arena.cells.length
    · rw [List.getElem?_append_left hlt, if_neg (by omega)]
    · by_cases heq : index = arena.cells.length
      · subst heq
        by_cases hzero : generation = 0
        · simp [hzero]
        · simp [hzero, Ne.symm hzero]
      · rw [if_neg (by omega), List.getElem?_eq_none (by simp; omega),
          List.getElem?_eq_none (by omega)]
  · -- The cell that was freed last is taken, in its next generation.
    rename_i free' free hfree
    obtain ⟨cell, hcell, hnone⟩ := (h.mem_free free').mp (by simp [hfree])
    obtain ⟨hlt, -⟩ := List.getElem?_eq_some_iff.mp hcell
    simp only [Handle.mk.injEq]
    by_cases heq : index = free'
    · subst heq
      rw [get?_of_cell _ (c := ⟨arena.generationAt index + 1, some value⟩) (by simp [hlt]),
        get?_of_cell _ hcell, hnone, ite_self]
      simp [eq_comm]
    · simp [get?, heq, Ne.symm heq]

/-- Storing a value keeps an arena sound. -/
theorem Sound.insert (h : arena.Sound) (value : α) : (arena.insert value).2.Sound := by
  unfold Arena.insert
  split
  · rename_i hfree
    refine ⟨List.nodup_nil, fun index => ?_, by simp [occupied, h.size_eq]⟩
    simp only [List.not_mem_nil, false_iff, not_exists, not_and]
    intro cell hcell hnone
    rw [List.getElem?_append] at hcell
    split at hcell
    · have hmem := (h.mem_free index).mpr ⟨cell, hcell, hnone⟩
      rw [hfree] at hmem
      cases hmem
    · rw [List.getElem?_singleton] at hcell
      split at hcell
      · cases hcell
        cases hnone
      · cases hcell
  · rename_i free' free hfree
    obtain ⟨cell, hcell, hnone⟩ := (h.mem_free free').mp (by simp [hfree])
    obtain ⟨hlt, -⟩ := List.getElem?_eq_some_iff.mp hcell
    -- The cell that is taken leaves the list of free cells, where it was once.
    have hnodup := h.nodup
    rw [hfree, List.nodup_cons] at hnodup
    have hoccupied := countP_set hcell ⟨arena.generationAt free' + 1, some value⟩
    rw [hnone] at hoccupied
    refine ⟨hnodup.2, fun index => ?_, (congrArg (· + 1) h.size_eq).trans hoccupied.symm⟩
    have hmem := h.mem_free index
    rw [hfree, List.mem_cons] at hmem
    simp only [List.getElem?_set]
    by_cases heq : free' = index
    · subst heq
      simp [hlt, hnodup.1]
    · rw [if_neg heq, ← hmem]
      simp [Ne.symm heq]

/-! ## Changing a value -/

/-- Changing a value changes what its handle names and no other. -/
theorem get?_modify (handle other : Handle) (change : α → α) :
    (arena.modify handle change).get? other =
      if other = handle then (arena.get? handle).map change else arena.get? other := by
  unfold modify
  split
  · rename_i hnone
    split
    · rename_i heq
      rw [heq, hnone]
      rfl
    · rfl
  · rename_i value hvalue
    have hcell := get?_eq_some.mp hvalue
    obtain ⟨hlt, -⟩ := List.getElem?_eq_some_iff.mp hcell
    obtain ⟨index, generation⟩ := other
    obtain ⟨index', generation'⟩ := handle
    simp only [Handle.mk.injEq] at *
    by_cases heq : index = index'
    · subst heq
      rw [get?_of_cell _ (c := ⟨generation', some (change value)⟩) (by simp [hlt]), hvalue]
      -- A handle of another generation names nothing, before and after.
      by_cases hgeneration : generation = generation'
      · simp [hgeneration]
      · rw [if_neg (Ne.symm hgeneration), if_neg (fun h => hgeneration h.2),
          get?_of_cell ⟨index, generation⟩ hcell, if_neg (Ne.symm hgeneration)]
    · simp [get?, heq, Ne.symm heq]

/-- Changing a value into itself changes nothing. -/
theorem modify_id (arena : Arena α) (handle : Handle) : arena.modify handle id = arena := by
  unfold modify
  split
  · rfl
  · rename_i value hvalue
    obtain ⟨hlt, hcell⟩ := List.getElem?_eq_some_iff.mp (get?_eq_some.mp hvalue)
    rw [id, ← hcell, List.set_getElem_self]

/-- Changing a value keeps an arena sound. -/
theorem Sound.modify (h : arena.Sound) (handle : Handle) (change : α → α) :
    (arena.modify handle change).Sound := by
  unfold Arena.modify
  split
  · exact h
  · rename_i value hvalue
    obtain ⟨hlt, hcell⟩ := List.getElem?_eq_some_iff.mp (get?_eq_some.mp hvalue)
    have hoccupied := countP_set (get?_eq_some.mp hvalue) ⟨handle.generation, some (change value)⟩
    refine ⟨h.nodup, fun index => ?_, h.size_eq.trans (Nat.add_right_cancel hoccupied).symm⟩
    rw [h.mem_free, List.getElem?_set]
    by_cases heq : handle.index = index
    · subst heq
      simp [hlt, hcell]
    · rw [if_neg heq]

/-! ## Taking a value out -/

/-- A value is taken out by a handle that names it. -/
theorem remove_eq_some : arena.remove handle = some (value, arena') ↔
    arena.get? handle = some value ∧ arena' =
      ⟨arena.cells.set handle.index ⟨handle.generation, none⟩, handle.index :: arena.free,
        arena.size - 1⟩ := by
  unfold remove
  cases arena.get? handle <;> simp [eq_comm]

/-- After a value was taken out its handle names nothing, and the others what they did. -/
theorem get?_remove (h : arena.remove handle = some (value, arena')) (other : Handle) :
    arena'.get? other = if other = handle then none else arena.get? other := by
  obtain ⟨hvalue, rfl⟩ := remove_eq_some.mp h
  have hcell := get?_eq_some.mp hvalue
  obtain ⟨hlt, -⟩ := List.getElem?_eq_some_iff.mp hcell
  obtain ⟨index, generation⟩ := other
  obtain ⟨index', generation'⟩ := handle
  simp only [Handle.mk.injEq] at *
  by_cases heq : index = index'
  · subst heq
    rw [get?_of_cell _ (c := ⟨generation', none⟩) (by simp [hlt]), ite_self]
    by_cases hgeneration : generation = generation'
    · simp [hgeneration]
    · rw [if_neg (fun h => hgeneration h.2), get?_of_cell ⟨index, generation⟩ hcell,
        if_neg (Ne.symm hgeneration)]
  · simp [get?, heq, Ne.symm heq]

/-- Taking a value out keeps an arena sound. -/
theorem Sound.remove (h : arena.Sound) (hremove : arena.remove handle = some (value, arena')) :
    arena'.Sound := by
  obtain ⟨hvalue, rfl⟩ := remove_eq_some.mp hremove
  have hcell := get?_eq_some.mp hvalue
  obtain ⟨hlt, -⟩ := List.getElem?_eq_some_iff.mp hcell
  constructor
  · refine List.nodup_cons.mpr ⟨fun hmem => ?_, h.nodup⟩
    obtain ⟨cell, hcell', hnone⟩ := (h.mem_free _).mp hmem
    rw [hcell] at hcell'
    cases hcell'
    cases hnone
  · intro index
    rw [List.mem_cons, h.mem_free, List.getElem?_set]
    by_cases heq : handle.index = index
    · subst heq
      simp [hlt]
    · simp [heq, Ne.symm heq]
  · have hoccupied := countP_set hcell ⟨handle.generation, none⟩
    have hsize := h.size_eq
    simp only [Option.isSome_some, Option.isSome_none, if_true, Bool.false_eq_true, if_false,
      Nat.add_zero] at hoccupied
    rw [hsize, ← hoccupied]
    rfl

/-! ## New handles after removals -/

/-- The cells of the values of an earlier arena are still there, and those that are empty now still
are of the generation that they were of. -/
def Follows (later earlier : Arena α) : Prop :=
  ∀ handle value, earlier.get? handle = some value → ∃ cell,
    later.cells[handle.index]? = some cell ∧
      (cell.value = none → cell.generation = handle.generation)

/-- Every arena follows itself. -/
theorem Follows.refl (arena : Arena α) : arena.Follows arena :=
  fun _ _ hvalue => ⟨_, get?_eq_some.mp hvalue, nofun⟩

/-- A new value gets a handle that named nothing earlier either: when its cell was in use then, it
is of another generation now. -/
theorem Follows.get?_insert_handle {earlier : Arena α} (h : arena.Follows earlier)
    (harena : arena.Sound) (value : α) : earlier.get? (arena.insert value).1 = none := by
  rw [Option.eq_none_iff_forall_ne_some]
  intro value' hvalue'
  obtain ⟨cell, hcell, hgeneration⟩ := h _ _ hvalue'
  unfold insert at hcell hgeneration
  split at hcell
  · simp at hcell
  · rename_i index free hfree
    obtain ⟨cell', hcell', hnone⟩ := (harena.mem_free index).mp (by simp [hfree])
    rw [hcell'] at hcell
    cases hcell
    have heq := hgeneration hnone
    simp only [hfree, generationAt, hcell', Option.map_some, Option.getD_some] at heq
    exact absurd heq.symm (by simp)

/-- Storing a value leads to a later arena. -/
theorem Follows.insert {earlier : Arena α} (h : arena.Follows earlier) (value : α) :
    (arena.insert value).2.Follows earlier := by
  intro handle value' hvalue'
  obtain ⟨cell, hcell, hgeneration⟩ := h handle value' hvalue'
  unfold Arena.insert
  split
  · obtain ⟨hlt, -⟩ := List.getElem?_eq_some_iff.mp hcell
    exact ⟨cell, (List.getElem?_append_left hlt).trans hcell, hgeneration⟩
  · rename_i index free hfree
    simp only [List.getElem?_set]
    by_cases heq : index = handle.index
    · obtain ⟨hlt, -⟩ := List.getElem?_eq_some_iff.mp hcell
      rw [heq]
      exact ⟨⟨_, some value⟩, by simp [hlt]; rfl, nofun⟩
    · rw [if_neg heq]
      exact ⟨cell, hcell, hgeneration⟩

/-- Changing a value leads to a later arena. -/
theorem Follows.modify {earlier : Arena α} (h : arena.Follows earlier) (handle : Handle)
    (change : α → α) : (arena.modify handle change).Follows earlier := by
  intro handle' value' hvalue'
  obtain ⟨cell, hcell, hgeneration⟩ := h handle' value' hvalue'
  unfold Arena.modify
  split
  · exact ⟨cell, hcell, hgeneration⟩
  · rename_i value _
    simp only [List.getElem?_set]
    by_cases heq : handle.index = handle'.index
    · obtain ⟨hlt, -⟩ := List.getElem?_eq_some_iff.mp hcell
      exact ⟨⟨handle.generation, some (change value)⟩, by simp [heq, hlt], nofun⟩
    · rw [if_neg heq]
      exact ⟨cell, hcell, hgeneration⟩

/-- The generations of the cells in their order. -/
def generations (arena : Arena α) : List UInt32 := arena.cells.map Cell.generation

/-- An arena follows another one with the same cells of the same generations. -/
theorem Follows.of_generations {earlier : Arena α} (h : arena.generations = earlier.generations) :
    arena.Follows earlier := by
  intro handle value hvalue
  have hcell := congrArg (fun generations => generations[handle.index]?) h
  simp only [generations, List.getElem?_map, get?_eq_some.mp hvalue, Option.map_some,
    Option.map_eq_some_iff] at hcell
  obtain ⟨cell, hcell, hgeneration⟩ := hcell
  exact ⟨cell, hcell, fun _ => hgeneration⟩

/-- Setting a cell to one of the same generation leaves all generations. -/
theorem map_generation_set (hvalue : arena.get? handle = some value) (content : Option α) :
    (arena.cells.set handle.index ⟨handle.generation, content⟩).map Cell.generation =
      arena.generations := by
  obtain ⟨hlt, hcell⟩ := List.getElem?_eq_some_iff.mp (get?_eq_some.mp hvalue)
  have hself := List.set_getElem_self (show handle.index < arena.generations.length by
    simpa [generations] using hlt)
  simpa [List.map_set, generations, hcell] using hself

/-- Changing a value leaves the cell of its generation. -/
theorem generations_modify (handle : Handle) (change : α → α) :
    (arena.modify handle change).generations = arena.generations := by
  unfold Arena.modify
  split
  · rfl
  · rename_i value hvalue
    exact map_generation_set hvalue _

/-- Taking a value out leaves the cell of its generation. -/
theorem generations_remove (h : arena.remove handle = some (value, arena')) :
    arena'.generations = arena.generations := by
  obtain ⟨hvalue, rfl⟩ := remove_eq_some.mp h
  exact map_generation_set hvalue _

/-- The cell of a new value is of the next generation, and the others stay of theirs. -/
theorem getElem?_generations_insert (h : arena.Sound) (value : α) (index : Nat) :
    (arena.insert value).2.generations[index]? =
      if index = (arena.insert value).1.index then some (arena.insert value).1.generation
      else arena.generations[index]? := by
  unfold insert generations
  split
  · rw [List.map_append, List.getElem?_append, List.length_map]
    by_cases hlt : index < arena.cells.length
    · rw [if_pos hlt, if_neg (by dsimp only; omega)]
    · by_cases heq : index = arena.cells.length
      · subst heq
        simp
      · rw [if_neg hlt, if_neg heq, List.getElem?_eq_none (by simp; omega),
          List.getElem?_eq_none (by simp; omega)]
  · rename_i free' free hfree
    obtain ⟨cell, hcell, -⟩ := (h.mem_free free').mp (by simp [hfree])
    obtain ⟨hlt, -⟩ := List.getElem?_eq_some_iff.mp hcell
    simp only [List.map_set, List.getElem?_set, List.length_map]
    by_cases heq : free' = index
    · subst heq
      simp [hlt]
    · rw [if_neg heq, if_neg (Ne.symm heq)]

/-- A new value is of the first generation or of the one after that of its cell. -/
theorem generation_insert (h : arena.Sound) (value : α) :
    (arena.insert value).1.generation =
      (arena.generations[(arena.insert value).1.index]?).elim 0 (· + 1) := by
  unfold insert generations
  split
  · simp
  · rename_i free' free hfree
    obtain ⟨cell, hcell, -⟩ := (h.mem_free free').mp (by simp [hfree])
    simp [generationAt, hcell]

/-- A handle is stale when its cell is of a later generation, or of its generation and empty. -/
theorem isStale_iff : arena.isStale handle = true ↔ ∃ generation,
    arena.generations[handle.index]? = some generation ∧ (handle.generation < generation ∨
      handle.generation = generation ∧ arena.get? handle = none) := by
  unfold isStale generations
  rw [List.getElem?_map]
  cases hcell : arena.cells[handle.index]? with
  | none => simp
  | some cell =>
    rw [get?_of_cell handle hcell]
    simp only [Bool.or_eq_true, decide_eq_true_eq, Bool.and_eq_true, Option.isNone_iff_eq_none,
      Option.map_some, Option.some.injEq, exists_eq_left']
    refine or_congr_right (and_congr_right fun heq => ?_)
    rw [if_pos heq.symm]

/-- A handle names nothing in a cell of another generation. -/
theorem get?_of_generation_ne {generation : UInt32}
    (h : arena.generations[handle.index]? = some generation)
    (hne : handle.generation ≠ generation) : arena.get? handle = none := by
  rw [generations, List.getElem?_map, Option.map_eq_some_iff] at h
  obtain ⟨cell, hcell, rfl⟩ := h
  rw [get?_of_cell handle hcell, if_neg hne.symm]

/-! ## The handles in use -/

/-- The handles that name values. -/
def handles (arena : Arena α) : List Handle := arena.toList.map Prod.fst

/-- The list of an arena holds what its handles name. -/
theorem mem_toList : (handle, value) ∈ arena.toList ↔ arena.get? handle = some value := by
  obtain ⟨index, generation⟩ := handle
  rw [get?_eq_some, toList]
  simp only [List.mem_filterMap, Option.map_eq_some_iff, Prod.exists, Prod.mk.injEq,
    Handle.mk.injEq]
  constructor
  · rintro ⟨⟨_, _⟩, _, hmem, _, rfl, ⟨rfl, rfl⟩, rfl⟩
    exact List.mk_mem_zipIdx_iff_getElem?.mp hmem
  · intro hcell
    exact ⟨_, index, List.mk_mem_zipIdx_iff_getElem?.mpr hcell, value, rfl, ⟨rfl, rfl⟩, rfl⟩

/-- The handles in use are those that name a value. -/
theorem mem_handles : handle ∈ arena.handles ↔ ∃ value, arena.get? handle = some value := by
  rw [handles, List.mem_map]
  constructor
  · rintro ⟨⟨handle, value⟩, hmem, rfl⟩
    exact ⟨value, mem_toList.mp hmem⟩
  · rintro ⟨value, hvalue⟩
    exact ⟨(handle, value), mem_toList.mpr hvalue, rfl⟩

/-- Every handle in use is listed once. -/
theorem nodup_handles (arena : Arena α) : arena.handles.Nodup := by
  have hindices : arena.cells.zipIdx.Pairwise fun a b => a.2 ≠ b.2 := by
    rw [← List.pairwise_map, List.zipIdx_map_snd]
    exact List.nodup_range'
  rw [handles, toList, List.Nodup, List.pairwise_map]
  refine hindices.filterMap _ fun a b hne x hx y hy heq => hne ?_
  obtain ⟨value, -, rfl⟩ := Option.map_eq_some_iff.mp hx
  obtain ⟨value', -, rfl⟩ := Option.map_eq_some_iff.mp hy
  exact congrArg Handle.index heq

/-- There are as many handles in use as cells with a value. -/
theorem length_handles_eq_occupied (arena : Arena α) : arena.handles.length = arena.occupied := by
  rw [handles, List.length_map, toList, List.length_filterMap_eq_countP, occupied]
  conv_rhs => rw [← List.zipIdx_map_fst 0 arena.cells, List.countP_map]
  refine List.countP_congr fun entry _ => ?_
  simp

/-- The size of a sound arena is the number of the handles in use. -/
theorem length_handles (h : arena.Sound) : arena.handles.length = arena.size :=
  (length_handles_eq_occupied arena).trans h.size_eq.symm

/-! ## The size -/

/-- Storing a value makes the size one more. -/
theorem size_insert (arena : Arena α) (value : α) :
    (arena.insert value).2.size = arena.size + 1 := by
  unfold insert
  split <;> rfl

/-- Changing a value leaves the size. -/
theorem size_modify (arena : Arena α) (handle : Handle) (change : α → α) :
    (arena.modify handle change).size = arena.size := by
  unfold modify
  split <;> rfl

/-- Taking a value out makes the size one less. -/
theorem size_remove (h : arena.Sound) (hremove : arena.remove handle = some (value, arena')) :
    arena.size = arena'.size + 1 := by
  obtain ⟨hvalue, rfl⟩ := remove_eq_some.mp hremove
  have hpos : 0 < arena.handles.length :=
    List.length_pos_of_mem (mem_handles.mpr ⟨value, hvalue⟩)
  rw [length_handles h] at hpos
  exact (Nat.sub_add_cancel hpos).symm

end TreeEditor.Arena
