import Mathlib
import TreeEditor.Text.Blank
import TreeEditor.Text.Numeral

/-!
# Laws of trimming, cutting and numerals

What the functions that take a text apart give back: trimming at the end and cutting are those of
the library (`Text.trimEnd_eq_rdropWhile`, `Text.cut_eq_splitOn`), what is cut once or loses its
last character can be put together again, and the decimal digits of a position are read as that
position (`Text.readPosition_toDigits`).
-/

namespace TreeEditor.Text

variable {cs before after : List Char} {c separator last : Char} {n : Nat}

/-! ## Trimming -/

/-- Trimming at the end drops blanks from the right. -/
theorem trimEnd_eq_rdropWhile (cs : List Char) : trimEnd cs = cs.rdropWhile isBlank := by
  induction cs with
  | nil => rfl
  | cons c cs ih =>
    rw [trimEnd, ih, List.rdropWhile, List.rdropWhile, List.reverse_cons, List.dropWhile_append]
    cases hrest : cs.reverse.dropWhile isBlank with
    | nil => by_cases hc : isBlank c <;> simp [hc]
    | cons d ds => simp

/-- A text that does not end in a blank is not trimmed at the end. -/
theorem trimEnd_eq_self (h : ∀ c ∈ cs.getLast?, isBlank c = false) : trimEnd cs = cs := by
  rw [trimEnd_eq_rdropWhile, List.rdropWhile_eq_self_iff]
  intro hne
  rw [h _ (List.getLast?_eq_some_getLast hne)]
  decide

/-- A trimmed text does not end in a blank. -/
theorem isBlank_of_mem_getLast?_trim (h : c ∈ (trim cs).getLast?) : isBlank c = false := by
  rw [trim, trimEnd_eq_rdropWhile] at h
  obtain ⟨hne, rfl⟩ := List.mem_getLast?_eq_getLast h
  exact Bool.not_eq_true _ ▸ List.rdropWhile_last_not isBlank _ hne

/-- A text that starts with another character than a blank is only trimmed at the end. -/
theorem trim_cons (h : isBlank c = false) (cs : List Char) :
    trim (c :: cs) = trimEnd (c :: cs) := by
  rw [trim, List.dropWhile_cons_of_neg (by simp [h])]

/-! ## Cutting -/

/-- Cutting at every separator is splitting at it. -/
theorem cut_eq_splitOn (separator : Char) (cs : List Char) :
    cut separator cs = cs.splitOn separator := by
  induction cs with
  | nil => rfl
  | cons c cs ih =>
    rw [cut, ih, List.splitOn_cons_eq_if_modifyHead]
    by_cases hc : c = separator
    · simp [hc]
    · cases hrest : cs.splitOn separator with
      | nil => exact absurd hrest (List.splitOn_ne_nil _ _)
      | cons piece pieces => simp [hc]

/-- No piece of a cut text has the separator. -/
theorem notMem_of_mem_cut {piece : List Char} (h : piece ∈ cut separator cs) :
    separator ∉ piece := by
  induction cs generalizing piece with
  | nil => simp_all [cut]
  | cons c cs ih =>
    rw [cut] at h
    split at h
    · rcases List.mem_cons.mp h with rfl | hmem
      · exact List.not_mem_nil
      · exact ih hmem
    · rename_i hne
      cases hrest : cut separator cs with
      | nil => simp_all [Ne.symm hne]
      | cons piece' pieces =>
        rw [hrest] at h ih
        rcases List.mem_cons.mp h with rfl | hmem
        · simp [Ne.symm hne, ih List.mem_cons_self]
        · exact ih (List.mem_cons_of_mem _ hmem)

/-- The last piece of a cut text is its end. -/
theorem suffix_of_mem_getLast?_cut {piece : List Char}
    (h : piece ∈ (cut separator cs).getLast?) : piece <:+ cs := by
  have hjoin : [separator].intercalate (cut separator cs) = cs := by
    rw [cut_eq_splitOn, List.intercalate_splitOn]
  rw [← hjoin]
  generalize cut separator cs = pieces at h
  induction pieces with
  | nil => cases h
  | cons first rest ih =>
    cases rest with
    | nil =>
      cases h
      simp
    | cons next rest =>
      rw [List.intercalate_cons_cons]
      exact (ih h).trans (List.suffix_append _ _)

/-- A text is cut once at the first separator that it has. -/
theorem cutOnce_eq_some : cutOnce separator cs = some (before, after) ↔
    cs = before ++ separator :: after ∧ separator ∉ before := by
  induction cs generalizing before with
  | nil => simp [cutOnce]
  | cons c cs ih =>
    rw [cutOnce]
    by_cases hc : c = separator
    · cases before <;> simp_all
    · cases before with
      | nil => simp [hc]
      | cons d before =>
        simp only [if_neg hc, Option.map_eq_some_iff, Prod.exists]
        grind

/-- A text is not cut once when it does not have the separator. -/
theorem cutOnce_eq_none : cutOnce separator cs = none ↔ separator ∉ cs := by
  induction cs with
  | nil => simp [cutOnce]
  | cons c cs ih =>
    by_cases hc : c = separator
    · simp [cutOnce, hc]
    · simp [cutOnce, hc, ih, Ne.symm hc]

/-- A text loses its last character when that is the given one. -/
theorem dropEnd_eq_some : dropEnd last cs = some before ↔ cs = before ++ [last] := by
  induction cs generalizing before with
  | nil => simp [dropEnd]
  | cons c cs ih =>
    cases cs with
    | nil => cases before <;> simp [dropEnd]
    | cons d ds =>
      cases before with
      | nil => simp [dropEnd]
      | cons e before =>
        simp only [dropEnd, Option.map_eq_some_iff, ih]
        grind

/-- A text does not lose its last character when it does not end in the given one. -/
theorem dropEnd_eq_none : dropEnd last cs = none ↔ ∀ before, cs ≠ before ++ [last] := by
  rw [Option.eq_none_iff_forall_ne_some]
  exact forall_congr' fun before => not_congr dropEnd_eq_some

/-! ## Numerals -/

/-- The digits of a number are read as the number. -/
theorem readDigits_toDigits (n : Nat) : readDigits (Nat.toDigits 10 n) = some n := by
  rw [readDigits, if_pos, Nat.ofDigitChars_ten_toDigits]
  exact ⟨Nat.toDigits_ne_nil, List.all_eq_true.mpr fun c =>
    Nat.isDigit_of_mem_toDigits (by decide) (by decide)⟩

/-- The digits of a position are read as the position. -/
theorem readPosition_toDigits (h : n < positionBound) :
    readPosition (Nat.toDigits 10 n) = some n := by
  have hsign : ∀ rest, Nat.toDigits 10 n ≠ '+' :: rest := fun rest heq => by
    have hdigit := Nat.isDigit_of_mem_toDigits (b := 10) (n := n) (c := '+') (by decide)
      (by decide) (by rw [heq]; exact List.mem_cons_self)
    exact absurd hdigit (by decide)
  unfold readPosition
  split
  · rename_i rest heq
    exact absurd heq (hsign rest)
  · simp [readDigits_toDigits, h]

/-- What is read as a position is one. -/
theorem lt_of_readPosition (h : readPosition cs = some n) : n < positionBound := by
  simpa using (Option.filter_eq_some_iff.mp h).2

end TreeEditor.Text
