import TreeEditor.Proofs.Arena

/-!
# What handles hold after calls to an arena

What an arena answers is said here by the calls that were made on it so far. A handle holds the
value that was stored under it, from the call that issued the handle up to the first call that
takes the value out, and is discarded from then on; a handle that was not issued yet is neither,
even if somebody made it up early. Every answer of the arena follows this account of the calls
(`Arena.accounted_history`), as long as no cell runs out of generations: the generation of a cell is
the number of times that it was used before, counted in 32 bits.

The size of an arena is a count of its own, which is kept by the calls and not taken from the cells.
It is the number of handles that hold a value all the same, and a history makes it as many as the
values that were stored less those that were taken out.
-/

namespace TreeEditor.Arena

variable {α : Type}

/-- A call that changes an arena. -/
inductive Operation (α : Type) where
  | insert (value : α)
  | remove (handle : Handle)

/-- A call with its answer: the handle of the new value, or the value that was taken out. -/
inductive Call (α : Type) where
  | inserted (value : α) (handle : Handle)
  | removed (handle : Handle) (taken : Option α)

/-- Makes a call. -/
def carry (arena : Arena α) : Operation α → Call α × Arena α
  | .insert value =>
    let (handle, arena) := arena.insert value
    (.inserted value handle, arena)
  | .remove handle =>
    match arena.remove handle with
    | some (value, arena) => (.removed handle (some value), arena)
    | none => (.removed handle none, arena)

/-- Makes calls one after the other on an empty arena: the calls with their answers in their order,
and the arena that they leave. -/
def history (operations : List (Operation α)) : List (Call α) × Arena α :=
  operations.foldl (fun (calls, arena) operation =>
    let (call, arena) := arena.carry operation
    (calls ++ [call], arena)) ([], empty)

/-! ## The account of the calls -/

/-- The handle that a call issued. -/
def Call.issues : Call α → Option Handle
  | .inserted _ handle => some handle
  | .removed .. => none

/-- The handle whose value a call was to take out. -/
def Call.discards : Call α → Option Handle
  | .inserted .. => none
  | .removed handle _ => some handle

/-- A call took a value out. -/
def Call.takes : Call α → Bool
  | .removed _ (some _) => true
  | _ => false

variable {calls : List (Call α)} {call : Call α} {arena arena' : Arena α} {handle other : Handle}
  {value : α} {operations : List (Operation α)}

/-- The handles that were issued, in their order. -/
def issued (calls : List (Call α)) : List Handle := calls.filterMap Call.issues

/-- The value was stored under the handle, and no later call was to take it out. -/
def Holds (calls : List (Call α)) (handle : Handle) (value : α) : Prop :=
  ∃ earlier later, calls = earlier ++ .inserted value handle :: later ∧
    ∀ call ∈ later, call.discards ≠ some handle

/-- A value was stored under the handle, and a later call was to take it out. -/
def Discarded (calls : List (Call α)) (handle : Handle) : Prop :=
  ∃ earlier value later, calls = earlier ++ .inserted value handle :: later ∧
    ∃ call ∈ later, call.discards = some handle

/-- No cell was used more often than there are generations. -/
def InTime (calls : List (Call α)) : Prop :=
  ∀ index, (issued calls).countP (·.index == index) ≤ UInt32.size

/-- The answers of an arena follow the account of the calls on it. -/
structure Accounted (calls : List (Call α)) (arena : Arena α) : Prop where
  /-- No handle was issued twice. -/
  nodup_issued : (issued calls).Nodup
  /-- A handle names what it holds. -/
  get?_iff : ∀ handle value, arena.get? handle = some value ↔ Holds calls handle value
  /-- What a handle holds can be taken out. -/
  remove_iff : ∀ handle value,
    (arena.carry (.remove handle)).1 = .removed handle (some value) ↔ Holds calls handle value
  /-- With a handle that holds nothing, nothing is taken out and nothing changes. -/
  remove_none : ∀ handle, (∀ value, ¬ Holds calls handle value) →
    arena.carry (.remove handle) = (.removed handle none, arena)
  /-- The stale handles are those that were issued and discarded. -/
  isStale_iff : ∀ handle, arena.isStale handle = true ↔ Discarded calls handle
  /-- The values are listed under the handles that hold them. -/
  mem_toList_iff : ∀ handle value, (handle, value) ∈ arena.toList ↔ Holds calls handle value
  /-- Every handle is listed once. -/
  nodup_toList : (arena.toList.map Prod.fst).Nodup
  /-- The size is the number of handles that hold a value. -/
  size_eq : arena.size = arena.toList.length
  /-- Every call that stores a value makes the size one more, and every call that takes a value out
  makes it one less. -/
  size_add : arena.size + calls.countP Call.takes = (issued calls).length

/-! ## One more call -/

/-- A further call adds the handle that it issues. -/
theorem issued_concat : issued (calls ++ [call]) = issued calls ++ call.issues.toList := by
  cases call <;> simp [issued, Call.issues]

/-- A call that is to take a value out issues nothing. -/
theorem issued_removed (calls : List (Call α)) (handle : Handle) (taken : Option α) :
    issued (calls ++ [.removed handle taken]) = issued calls := by
  rw [issued_concat]
  exact List.append_nil _

/-- Calls that are in time with a further one are in time without it. -/
theorem InTime.of_concat (h : InTime (calls ++ [call])) : InTime calls := by
  intro index
  have hlater := h index
  rw [issued_concat, List.countP_append] at hlater
  omega

/-- A sequence of calls and a further one, split at one of them: it is the further one, or the
split is one of the sequence. -/
theorem concat_eq_append_cons {earlier later : List (Call α)} {middle : Call α} :
    calls ++ [call] = earlier ++ middle :: later ↔
      (later = [] ∧ earlier = calls ∧ middle = call) ∨
        ∃ later', later = later' ++ [call] ∧ calls = earlier ++ middle :: later' := by
  constructor
  · intro heq
    rcases List.eq_nil_or_concat later with rfl | ⟨later', last, rfl⟩
    · obtain ⟨rfl, hlast⟩ := List.append_inj' heq rfl
      exact .inl ⟨rfl, rfl, (List.singleton_inj.mp hlast).symm⟩
    · have hends : calls ++ [call] = (earlier ++ middle :: later') ++ [last] := by
        simpa using heq
      obtain ⟨hcalls, hlast⟩ := List.append_inj' hends rfl
      rw [List.concat_eq_append, List.singleton_inj.mp hlast]
      exact .inr ⟨later', rfl, hcalls⟩
  · rintro (⟨rfl, rfl, rfl⟩ | ⟨later', rfl, rfl⟩)
    · rfl
    · simp

/-- After a further call a handle holds the value that the call stored under it, or what it held, if
the call was not to take it out. -/
theorem holds_concat : Holds (calls ++ [call]) handle value ↔
    call = .inserted value handle ∨
      (Holds calls handle value ∧ call.discards ≠ some handle) := by
  constructor
  · rintro ⟨earlier, later, hcalls, hlater⟩
    rcases concat_eq_append_cons.mp hcalls with ⟨-, -, rfl⟩ | ⟨later', rfl, rfl⟩
    · exact .inl rfl
    · exact .inr ⟨⟨earlier, later', rfl, fun call hcall => hlater call (by simp [hcall])⟩,
        hlater call (by simp)⟩
  · rintro (rfl | ⟨⟨earlier, later, rfl, hlater⟩, hcall⟩)
    · exact ⟨calls, [], rfl, by simp⟩
    · refine ⟨earlier, later ++ [call], by simp, fun call' hcall' => ?_⟩
      rcases List.mem_append.mp hcall' with hcall' | hcall'
      · exact hlater call' hcall'
      · rw [List.mem_singleton.mp hcall']
        exact hcall

/-- After a further call the discarded handles are those from before, and the one whose value the
call was to take out, if it had been issued. -/
theorem discarded_concat : Discarded (calls ++ [call]) handle ↔
    Discarded calls handle ∨ (handle ∈ issued calls ∧ call.discards = some handle) := by
  constructor
  · rintro ⟨earlier, value, later, hcalls, call', hmem, hdiscards⟩
    rcases concat_eq_append_cons.mp hcalls with ⟨rfl, -, -⟩ | ⟨later', rfl, rfl⟩
    · cases hmem
    · rcases List.mem_append.mp hmem with hmem | hmem
      · exact .inl ⟨earlier, value, later', rfl, call', hmem, hdiscards⟩
      · rw [List.mem_singleton.mp hmem] at hdiscards
        exact .inr ⟨by simp [issued, Call.issues], hdiscards⟩
  · rintro (⟨earlier, value, later, rfl, call', hmem, hdiscards⟩ | ⟨hissued, hdiscards⟩)
    · exact ⟨earlier, value, later ++ [call], by simp, call', by simp [hmem], hdiscards⟩
    · obtain ⟨call', hcall', hissues⟩ := List.mem_filterMap.mp hissued
      obtain ⟨earlier, later, rfl⟩ := List.append_of_mem hcall'
      cases call' with
      | removed handle taken => cases hissues
      | inserted value handle' =>
        cases hissues
        exact ⟨earlier, value, later ++ [call], by simp, call, by simp, hdiscards⟩

/-! ## Cells and their generations -/

/-- What is known of an arena after calls in time: the handles that were issued for a cell are those
of its generation and of all earlier ones. -/
structure Tracks (calls : List (Call α)) (arena : Arena α) : Prop where
  sound : arena.Sound
  nodup : (issued calls).Nodup
  /-- Each use of a cell made its generation one more. -/
  uses : ∀ index, (issued calls).countP (·.index == index) =
    (arena.generations[index]?).elim 0 (·.toNat + 1)
  mem_issued : ∀ handle, handle ∈ issued calls ↔
    ∃ generation, arena.generations[handle.index]? = some generation ∧
      handle.generation ≤ generation
  get?_iff : ∀ handle value, arena.get? handle = some value ↔ Holds calls handle value
  discarded_iff : ∀ handle, Discarded calls handle ↔
    handle ∈ issued calls ∧ arena.get? handle = none
  size_add : arena.size + calls.countP Call.takes = (issued calls).length

/-- Nothing was issued for the empty arena. -/
theorem tracks_empty : Tracks ([] : List (Call α)) empty where
  sound := sound_empty
  nodup := List.nodup_nil
  uses index := by simp [issued, generations, empty]
  mem_issued handle := by simp [issued, generations, empty]
  get?_iff handle value := by simp [get?_empty, Holds]
  discarded_iff handle := by simp [issued, Discarded]
  size_add := by simp [issued, empty]

/-- The generations of a cell that gets a new value: the cell is new, or the next generation is one
more as long as the cell was not used too often. -/
theorem Tracks.toNat_generation_insert (h : Tracks calls arena) (value : α)
    (hin : InTime (calls ++ [.inserted value (arena.insert value).1])) :
    (arena.insert value).1.generation.toNat =
      (issued calls).countP (·.index == (arena.insert value).1.index) := by
  have htime := hin (arena.insert value).1.index
  rw [issued_concat, List.countP_append] at htime
  rw [h.uses] at htime ⊢
  rw [generation_insert h.sound]
  cases hgeneration : arena.generations[(arena.insert value).1.index]? with
  | none => rfl
  | some generation =>
    simp only [hgeneration, Option.elim_some, Call.issues, Option.toList_some, beq_self_eq_true,
      List.countP_cons_of_pos, List.countP_nil] at htime ⊢
    have hsize : UInt32.size = 2 ^ 32 := rfl
    rw [UInt32.toNat_add, UInt32.toNat_one]
    exact Nat.mod_eq_of_lt (by omega)

/-- The handles of a cell that are issued with a new value in it: those that were, and the new
one. -/
theorem Tracks.mem_issued_insert (h : Tracks calls arena) (value : α)
    (hin : InTime (calls ++ [.inserted value (arena.insert value).1]))
    (hindex : handle.index = (arena.insert value).1.index) :
    (handle ∈ issued calls ∨ handle = (arena.insert value).1) ↔
      handle.generation ≤ (arena.insert value).1.generation := by
  have hnext := h.toNat_generation_insert value hin
  have heq : handle = (arena.insert value).1 ↔
      handle.generation.toNat = (arena.insert value).1.generation.toNat := by
    rw [UInt32.toNat_inj]
    exact ⟨fun heq => by rw [heq], fun heq => by
      cases handle
      simp_all⟩
  rw [h.mem_issued, hindex, heq, UInt32.le_iff_toNat_le, hnext, h.uses]
  cases arena.generations[(arena.insert value).1.index]? with
  | none => simp
  | some generation =>
    simp only [Option.some.injEq, exists_eq_left', Option.elim_some, UInt32.le_iff_toNat_le]
    omega

/-- Storing a value continues the account. -/
theorem Tracks.insert (h : Tracks calls arena) (value : α)
    (hin : InTime (calls ++ [.inserted value (arena.insert value).1])) :
    Tracks (calls ++ [.inserted value (arena.insert value).1]) (arena.insert value).2 := by
  have hgenerations := getElem?_generations_insert h.sound value
  have hnext := h.toNat_generation_insert value hin
  -- The generation is beyond all those that were issued for its cell.
  have hnew : (arena.insert value).1 ∉ issued calls := by
    have huses := h.uses (arena.insert value).1.index
    rw [h.mem_issued]
    rintro ⟨generation, hgeneration, hle⟩
    rw [hgeneration, Option.elim_some, ← hnext] at huses
    have hbound := UInt32.le_iff_toNat_le.mp hle
    omega
  constructor
  case sound => exact h.sound.insert value
  case nodup =>
    rw [issued_concat]
    exact List.nodup_append.mpr ⟨h.nodup, List.nodup_singleton _, fun handle hissued other hother =>
      by
        rw [List.mem_singleton.mp hother]
        exact fun heq => hnew (heq ▸ hissued)⟩
  case uses =>
    intro index
    rw [issued_concat, List.countP_append, hgenerations]
    by_cases hindex : index = (arena.insert value).1.index
    · rw [if_pos hindex, hindex, Option.elim_some, hnext]
      simp [Call.issues]
    · rw [if_neg hindex, h.uses]
      simp [Call.issues, Ne.symm hindex]
  case mem_issued =>
    intro handle
    rw [issued_concat, hgenerations]
    simp only [Call.issues, Option.toList_some, List.mem_append, List.mem_singleton]
    by_cases hindex : handle.index = (arena.insert value).1.index
    · rw [h.mem_issued_insert value hin hindex, if_pos hindex]
      simp
    · rw [if_neg hindex, h.mem_issued]
      exact or_iff_left fun heq => hindex (by rw [heq])
  case get?_iff =>
    intro handle value'
    rw [get?_insert h.sound, holds_concat, ← h.get?_iff]
    by_cases heq : handle = (arena.insert value).1
    · simp [heq, get?_insert_handle h.sound, Call.discards]
    · simp [heq, Ne.symm heq, Call.discards]
  case discarded_iff =>
    intro handle
    rw [discarded_concat, get?_insert h.sound, issued_concat, h.discarded_iff]
    by_cases heq : handle = (arena.insert value).1
    · simp [heq, hnew, Call.discards]
    · simp [heq, Call.issues, Call.discards]
  case size_add =>
    rw [issued_concat, List.countP_append, size_insert, List.length_append, ← h.size_add]
    simp [Call.issues, Call.takes]
    omega

/-- Taking a value out continues the account. -/
theorem Tracks.remove (h : Tracks calls arena)
    (hremove : arena.remove handle = some (value, arena')) :
    Tracks (calls ++ [.removed handle (some value)]) arena' := by
  have hissued := issued_removed calls handle (some value)
  constructor
  case sound => exact h.sound.remove hremove
  case nodup => exact hissued ▸ h.nodup
  case uses => rw [hissued, generations_remove hremove]; exact h.uses
  case mem_issued => rw [hissued, generations_remove hremove]; exact h.mem_issued
  -- Only the handle that is given loses its value: its calls end with the removal.
  case get?_iff =>
    intro other value'
    rw [get?_remove hremove, holds_concat, ← h.get?_iff]
    by_cases heq : other = handle
    · simp [heq, Call.discards]
    · simp [heq, Ne.symm heq, Call.discards]
  case discarded_iff =>
    intro other
    rw [discarded_concat, hissued, h.discarded_iff, get?_remove hremove]
    by_cases heq : other = handle
    · simp +contextual [heq, Call.discards]
    · simp [heq, Ne.symm heq, Call.discards]
  case size_add =>
    rw [hissued, ← h.size_add, size_remove h.sound hremove, List.countP_append]
    simp [Call.takes]
    omega

/-- A call that takes nothing out continues the account. -/
theorem Tracks.remove_none (h : Tracks calls arena) (hnone : arena.get? handle = none) :
    Tracks (calls ++ [.removed handle none]) arena := by
  have hissued := issued_removed calls handle none
  constructor
  case sound => exact h.sound
  case nodup => exact hissued ▸ h.nodup
  case uses => rw [hissued]; exact h.uses
  case mem_issued => rw [hissued]; exact h.mem_issued
  case get?_iff =>
    intro other value'
    rw [holds_concat, ← h.get?_iff]
    by_cases heq : other = handle
    · simp [heq, hnone, Call.discards]
    · simp [Ne.symm heq, Call.discards]
  case discarded_iff =>
    intro other
    rw [discarded_concat, hissued, h.discarded_iff]
    by_cases heq : other = handle
    · simp [heq, hnone, Call.discards]
    · simp [Ne.symm heq, Call.discards]
  case size_add =>
    rw [hissued, ← h.size_add, List.countP_append]
    simp [Call.takes]

/-! ## All calls -/

/-- Without a value under its handle nothing is taken out. -/
theorem remove_eq_none : arena.remove handle = none ↔ arena.get? handle = none := by
  unfold remove
  cases arena.get? handle <;> simp

/-- A value that is taken out is the answer. -/
theorem carry_remove (h : arena.remove handle = some (value, arena')) :
    arena.carry (.remove handle) = (.removed handle (some value), arena') := by
  simp only [carry, h]

/-- Without a value to take out nothing changes. -/
theorem carry_remove_none (h : arena.get? handle = none) :
    arena.carry (.remove handle) = (.removed handle none, arena) := by
  simp only [carry, remove_eq_none.mpr h]

/-- Every call continues the account. -/
theorem Tracks.carry (h : Tracks calls arena) (operation : Operation α)
    (hin : InTime (calls ++ [(arena.carry operation).1])) :
    Tracks (calls ++ [(arena.carry operation).1]) (arena.carry operation).2 := by
  cases operation with
  | insert value => exact h.insert value hin
  | remove handle =>
    cases hremove : arena.remove handle with
    | some taken =>
      rw [carry_remove hremove]
      exact h.remove hremove
    | none =>
      have hnone := remove_eq_none.mp hremove
      rw [carry_remove_none hnone]
      exact h.remove_none hnone

/-- The history of one more call. -/
theorem history_concat (operations : List (Operation α)) (operation : Operation α) :
    history (operations ++ [operation]) =
      ((history operations).1 ++ [((history operations).2.carry operation).1],
        ((history operations).2.carry operation).2) := by
  simp only [history, List.foldl_append, List.foldl_cons, List.foldl_nil]

/-- Every history in time is accounted for. -/
theorem tracks_history (hin : InTime (history operations).1) :
    Tracks (history operations).1 (history operations).2 := by
  induction operations using List.reverseRecOn with
  | nil => exact tracks_empty
  | append_singleton operations operation ih =>
    rw [history_concat] at hin ⊢
    exact (ih hin.of_concat).carry operation hin

/-- A handle is stale when its cell is of its generation or of a later one and it names nothing. -/
theorem isStale_iff_le : arena.isStale handle = true ↔
    (∃ generation, arena.generations[handle.index]? = some generation ∧
      handle.generation ≤ generation) ∧ arena.get? handle = none := by
  rw [isStale_iff]
  constructor
  · rintro ⟨generation, hcell, hlt | ⟨heq, hnone⟩⟩
    · exact ⟨⟨generation, hcell, UInt32.le_of_lt hlt⟩,
        get?_of_generation_ne hcell (UInt32.ne_of_lt hlt)⟩
    · exact ⟨⟨generation, hcell, UInt32.le_of_eq heq⟩, hnone⟩
  · rintro ⟨⟨generation, hcell, hle⟩, hnone⟩
    rcases eq_or_ne handle.generation generation with heq | hne
    · exact ⟨generation, hcell, .inr ⟨heq, hnone⟩⟩
    · exact ⟨generation, hcell, .inl (UInt32.lt_iff_le_and_ne.mpr ⟨hle, hne⟩)⟩

/-- What an arena answers follows the calls that were made on it. For every sequence of calls with
any handles, also with stale ones and with ones that were made up, in which no cell is used more
often than there are generations: no handle is issued twice, a handle names the value that was
stored under it until the first call that takes it out, and nothing before and after, such a call
succeeds exactly then, and a handle is stale exactly from then on. The list of an arena has every
handle that holds a value once, and its size counts them. -/
theorem accounted_history (operations : List (Operation α)) (hin : InTime (history operations).1) :
    Accounted (history operations).1 (history operations).2 := by
  have h := tracks_history hin
  refine ⟨h.nodup, h.get?_iff, fun handle value => ?_, fun handle hnone => ?_, fun handle => ?_,
    fun handle value => mem_toList.trans (h.get?_iff handle value), nodup_handles _, ?_, h.size_add⟩
  · rw [← h.get?_iff]
    cases hvalue : (history operations).2.get? handle with
    | none => simp [carry_remove_none hvalue]
    | some value' => simp [carry_remove (remove_eq_some.mpr ⟨hvalue, rfl⟩)]
  · refine carry_remove_none (Option.eq_none_iff_forall_ne_some.mpr fun value hvalue => ?_)
    exact hnone value ((h.get?_iff handle value).mp hvalue)
  · rw [isStale_iff_le, h.discarded_iff, h.mem_issued]
  · rw [← length_handles h.sound, handles, List.length_map]

/-- Calls on one cell: its second handle is made up before it is issued, and the first one is used
again after the value was taken out. -/
def reuse : List (Operation Nat) :=
  [.insert 7, .remove ⟨0, 1⟩, .remove ⟨0, 0⟩, .remove ⟨0, 0⟩, .insert 8]

/-- The calls on one cell are accounted for: in the end the first handle is stale and the second one
names the new value. -/
theorem accounted_history_reuse :
    InTime (history reuse).1 ∧ Accounted (history reuse).1 (history reuse).2 ∧
      (history reuse).2.isStale ⟨0, 0⟩ = true ∧ (history reuse).2.get? ⟨0, 1⟩ = some 8 := by
  have hin : InTime (history reuse).1 := fun index => by
    have hlength : (issued (history reuse).1).length = 2 := by decide
    exact (List.countP_le_length.trans_eq hlength).trans (by decide)
  exact ⟨hin, accounted_history reuse hin, by decide, by decide⟩

end TreeEditor.Arena
