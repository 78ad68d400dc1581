import TreeEditor.Path.Reader
import TreeEditor.Proofs.Cutting
import TreeEditor.Proofs.Forms

/-!
# Printing and reading paths

A printed path is read as itself exactly when its names can be told from what stands around them
(`Path.read_text_iff`): no name is empty or has a slash, a name before brackets has no bracket, and
a name alone has no bracket either and does not end in a question mark, nor in a blank where the
text ends with it. Every path that is read from some text is of this kind, also when the text writes
it in another way than it is printed, with blanks, slashes, signs and leading zeros.
-/

namespace TreeEditor

open Text

/-- A step can be told from its text: its name is not empty and has no slash, and what follows the
name cannot be taken for a part of it. -/
def Step.Printable (step : Step) : Prop :=
  step.property ≠ "" ∧ '/' ∉ step.property.toList ∧
    match step.slot with
    | .placeholder => '[' ∉ step.property.toList ∧ step.property.toList.getLast? ≠ some '?'
    | .optional => True
    | .list _ | .member _ _ => '[' ∉ step.property.toList

/-- A path can be told from its text: all its steps can, and blanks at the end of the text are no
part of the last one. -/
def Path.Printable (path : Path) : Prop :=
  (∀ step ∈ path, step.Printable) ∧
    ∀ step ∈ path.getLast?, step.slot = .placeholder →
      ∀ c ∈ step.property.toList.getLast?, isBlank c = false

/-! ## Steps -/

section Steps

variable {segment inside : List Char} {step : Step} {slot : Slot}

/-- The inside of the brackets of a position is read as it. -/
theorem Path.readInside_list {position : Nat} (h : position < positionBound) :
    readInside (Nat.toDigits 10 position) = some (.list position) := by
  have hcolon : cutOnce ':' (Nat.toDigits 10 position) = none :=
    cutOnce_eq_none.mpr fun hmem =>
      absurd (Nat.isDigit_of_mem_toDigits (by decide) (by decide) hmem) (by decide)
  simp only [readInside, hcolon, readPosition_toDigits h, Option.map_some]

/-- The inside of the brackets of a block and a position is read as them. -/
theorem Path.readInside_member {block position : Nat} (hblock : block < positionBound)
    (hposition : position < positionBound) :
    readInside (Nat.toDigits 10 block ++ ':' :: Nat.toDigits 10 position) =
      some (.member block position) := by
  have hcolon : cutOnce ':' (Nat.toDigits 10 block ++ ':' :: Nat.toDigits 10 position) =
      some (Nat.toDigits 10 block, Nat.toDigits 10 position) :=
    cutOnce_eq_some.mpr ⟨rfl, fun hmem =>
      absurd (Nat.isDigit_of_mem_toDigits (by decide) (by decide) hmem) (by decide)⟩
  simp only [readInside, hcolon, readPosition_toDigits hblock, readPosition_toDigits hposition]
  rfl

/-- A name with brackets after it is read as the name and what is inside. -/
theorem Path.readSegment_brackets {property : List Char} (hproperty : '[' ∉ property)
    (hinside : readInside inside = some slot) :
    readSegment (property ++ '[' :: (inside ++ [']'])) = some (property, slot) := by
  have hquestion : dropEnd '?' (property ++ '[' :: (inside ++ [']'])) = none :=
    dropEnd_eq_none.mpr fun before heq => by
      have hends : (property ++ '[' :: inside) ++ [']'] = before ++ ['?'] := by simpa using heq
      exact absurd (List.append_inj' hends rfl).2 (by decide)
  have hcut : cutOnce '[' (property ++ '[' :: (inside ++ [']'])) =
      some (property, inside ++ [']']) := cutOnce_eq_some.mpr ⟨rfl, hproperty⟩
  have hbracket : dropEnd ']' (inside ++ [']']) = some inside := dropEnd_eq_some.mpr rfl
  simp only [readSegment, hquestion, hcut, hbracket, Option.bind_eq_bind, Option.bind_some,
    hinside]
  rfl

/-- A position in brackets as text. -/
theorem Slot.toList_text_list (position : Nat) :
    (Slot.list position).text.toList = '[' :: (Nat.toDigits 10 position ++ [']']) := by
  simp [Slot.text, toString]

/-- A block and a position in brackets as text. -/
theorem Slot.toList_text_member (block position : Nat) :
    (Slot.member block position).text.toList =
      '[' :: ((Nat.toDigits 10 block ++ ':' :: Nat.toDigits 10 position) ++ [']']) := by
  simp [Slot.text, toString]

/-- The text of a step that can be told from it is read as its name and its slot. -/
theorem Step.readSegment_text (h : step.Printable)
    (hfits : ∀ n ∈ step.slot.positions, n < positionBound) :
    Path.readSegment step.text.toList = some (step.property.toList, step.slot) := by
  obtain ⟨property, slot⟩ := step
  obtain ⟨-, -, hslot⟩ := h
  rw [Step.text, String.toList_append]
  -- The slots are told apart by a bracket and by a question mark at the end, which no name of a
  -- placeholder has.
  cases slot with
  | placeholder =>
    obtain ⟨hbracket, hquestion⟩ := hslot
    have hdrop : dropEnd '?' property.toList = none :=
      dropEnd_eq_none.mpr fun before heq => hquestion (by simp [heq])
    simp [Slot.text, Path.readSegment, hdrop, cutOnce_eq_none.mpr hbracket]
  | optional =>
    have hdrop : dropEnd '?' (property.toList ++ ['?']) = some property.toList :=
      dropEnd_eq_some.mpr rfl
    simp [Slot.text, Path.readSegment, hdrop]
  | list position =>
    rw [Slot.toList_text_list]
    exact Path.readSegment_brackets hslot
      (Path.readInside_list (hfits position (by simp [Slot.positions])))
  | member block position =>
    rw [Slot.toList_text_member]
    exact Path.readSegment_brackets hslot (Path.readInside_member
      (hfits block (by simp [Slot.positions])) (hfits position (by simp [Slot.positions])))

/-- The text of a step that can be told from it is read as the step. -/
theorem Step.readStep_text (h : step.Printable)
    (hfits : ∀ n ∈ step.slot.positions, n < positionBound) :
    Path.readStep step.text.toList = some step := by
  have hne : step.property.toList ≠ [] := fun heq => h.1 (String.toList_eq_nil_iff.mp heq)
  simp [Path.readStep, readSegment_text h hfits, hne]

/-- What the inside of brackets is read as: positions. -/
theorem Path.readInside_eq_some (h : readInside inside = some slot) :
    (∀ n ∈ slot.positions, n < positionBound) ∧
      ((∃ position, slot = .list position) ∨ ∃ block position, slot = .member block position) := by
  unfold readInside at h
  split at h
  · simp only [Option.bind_eq_bind, Option.bind_eq_some_iff] at h
    obtain ⟨block, hblock, position, hposition, hslot⟩ := h
    cases hslot
    refine ⟨?_, .inr ⟨block, position, rfl⟩⟩
    simp [Slot.positions, lt_of_readPosition hblock, lt_of_readPosition hposition]
  · obtain ⟨position, hposition, rfl⟩ := Option.map_eq_some_iff.mp h
    exact ⟨by simp [Slot.positions, lt_of_readPosition hposition], .inl ⟨position, rfl⟩⟩

/-- What a segment without a slash is read as: a step that can be told from its text, and a
placeholder only if the segment is its name. -/
theorem Path.printable_of_readStep (h : readStep segment = some step) (hslash : '/' ∉ segment) :
    step.Printable ∧ (∀ n ∈ step.slot.positions, n < positionBound) ∧
      (step.slot = .placeholder → step.property.toList = segment) := by
  simp only [readStep, Option.bind_eq_bind, Option.bind_eq_some_iff,
    Prod.exists] at h
  obtain ⟨property, slot, hsegment, hstep⟩ := h
  split at hstep
  · cases hstep
  rename_i hne
  cases hstep
  have hname : String.ofList property ≠ "" := by simpa using hne
  -- The cases are those of reading: a question mark at the end, no bracket, or a bracket.
  unfold readSegment at hsegment
  split at hsegment
  · rename_i hdrop
    cases hsegment
    rw [dropEnd_eq_some.mp hdrop] at hslash
    exact ⟨⟨hname, by simpa using hslash, trivial⟩, nofun, nofun⟩
  rename_i hdrop
  split at hsegment
  · rename_i hcut
    cases hsegment
    have hquestion : segment.getLast? ≠ some '?' := fun hlast => by
      obtain ⟨before, heq⟩ := List.getLast?_eq_some_iff.mp hlast
      exact dropEnd_eq_none.mp hdrop before heq
    exact ⟨⟨hname, by simpa using hslash, by simpa using cutOnce_eq_none.mp hcut,
      by simpa using hquestion⟩, nofun, fun _ => by simp⟩
  · rename_i hcut
    simp only [Option.bind_eq_bind, Option.bind_eq_some_iff] at hsegment
    obtain ⟨inside, -, slot', hinside, hslot⟩ := hsegment
    cases hslot
    obtain ⟨heq, hbracket⟩ := cutOnce_eq_some.mp hcut
    have hproperty : '/' ∉ property := fun hmem => hslash (by simp [heq, hmem])
    obtain ⟨hfits, ⟨position, rfl⟩ | ⟨block, position, rfl⟩⟩ := readInside_eq_some hinside <;>
      exact ⟨⟨hname, by simpa using hproperty, by simpa using hbracket⟩, hfits, nofun⟩

/-- The text of a step ends in a blank only when the name of a placeholder does. -/
theorem Step.isBlank_of_mem_getLast?_text
    (h : step.slot = .placeholder → ∀ c ∈ step.property.toList.getLast?, isBlank c = false) :
    ∀ c ∈ step.text.toList.getLast?, isBlank c = false := by
  obtain ⟨property, slot⟩ := step
  rw [Step.text, String.toList_append]
  cases slot with
  | placeholder => simpa [Slot.text] using h rfl
  | optional =>
    rw [show Slot.optional.text.toList = ['?'] from rfl, List.getLast?_concat]
    rintro c ⟨⟩
    decide
  | list position =>
    rw [Slot.toList_text_list, ← List.cons_append, ← List.append_assoc, List.getLast?_concat]
    rintro c ⟨⟩
    decide
  | member block position =>
    rw [Slot.toList_text_member, ← List.cons_append, ← List.append_assoc, List.getLast?_concat]
    rintro c ⟨⟩
    decide

/-- No slot has a slash in its text. -/
theorem Slot.notMem_text (slot : Slot) : '/' ∉ slot.text.toList := by
  have hdigits : ∀ n, '/' ∉ Nat.toDigits 10 n := fun n hmem =>
    absurd (Nat.isDigit_of_mem_toDigits (by decide) (by decide) hmem) (by decide)
  cases slot with
  | placeholder => exact List.not_mem_nil
  | optional => decide
  | list position => simp [Slot.toList_text_list, hdigits]
  | member block position => simp [Slot.toList_text_member, hdigits]

/-- The text of a step that can be told from it has no slash. -/
theorem Step.notMem_text (h : step.Printable) : '/' ∉ step.text.toList := by
  rw [Step.text, String.toList_append, List.mem_append, not_or]
  exact ⟨h.2.1, Slot.notMem_text _⟩

/-- The text of a step that can be told from it starts with its name, and not with a slash. -/
theorem Step.exists_text_eq_cons (h : step.Printable) :
    ∃ c cs, step.text.toList = c :: cs ∧ c ≠ '/' := by
  have hslash := Step.notMem_text h
  rw [Step.text, String.toList_append] at hslash ⊢
  cases hname : step.property.toList with
  | nil => exact absurd (String.toList_eq_nil_iff.mp hname) h.1
  | cons c cs =>
    rw [hname] at hslash
    exact ⟨c, _, rfl, fun heq => hslash (by simp [heq])⟩

end Steps

/-! ## Paths -/

namespace Path

variable {segments : List (List Char)} {path : Path} {text : String}

/-- Segments are read as a path when each is read as its step. -/
theorem readSteps_eq_ok : readSteps segments = .ok path ↔
    segments.map readStep = path.map some := by
  induction segments generalizing path with
  | nil => cases path <;> simp [readSteps]
  | cons segment rest ih =>
    rw [readSteps]
    cases hstep : readStep segment with
    | none => cases path <;> simp [hstep]
    | some step =>
      rw [show (readSteps rest).map (step :: ·) = .ok path ↔
        ∃ steps, readSteps rest = .ok steps ∧ step :: steps = path by
          cases readSteps rest <;> simp [Except.map]]
      cases path with
      | nil => simp
      | cons step' steps => simp [hstep, ih, and_comm]

/-- The texts of the steps of a path with slashes between them. -/
def body (path : Path) : List Char := ['/'].intercalate (path.map fun step => step.text.toList)

/-- The steps of a path after the first one follow a slash. -/
theorem body_cons_cons (step next : Step) (rest : Path) :
    body (step :: next :: rest) = step.text.toList ++ '/' :: body (next :: rest) := by
  simp [body, List.intercalate_cons_cons]

/-- The text of a path that is not the root: its steps after a slash, with slashes between. -/
theorem toList_text (hne : path ≠ []) : path.text.toList = '/' :: path.body := by
  rw [text, if_neg (by simpa using hne), String.toList_join, List.flatMap_map]
  induction path with
  | nil => exact absurd rfl hne
  | cons step rest ih =>
    cases rest with
    | nil => simp [body]
    | cons next rest =>
      rw [List.flatMap_cons, ih (List.cons_ne_nil _ _), body_cons_cons]
      simp

/-- The text of a path that can be told from it does not end in a blank. -/
theorem Printable.isBlank_of_mem_getLast? (h : path.Printable) :
    ∀ c ∈ ('/' :: path.body).getLast?, isBlank c = false := by
  -- By induction on the path: what counts is the last step, or the slash if its text is empty.
  induction path with
  | nil =>
    rintro c ⟨⟩
    decide
  | cons step rest ih =>
    cases rest with
    | nil =>
      have hstep := Step.isBlank_of_mem_getLast?_text (h.2 step rfl)
      rintro c hc
      rw [body, List.map_cons, List.map_nil, List.intercalate_singleton, List.getLast?_cons] at hc
      cases hlast : step.text.toList.getLast? with
      | none =>
        rw [hlast] at hc
        cases hc
        decide
      | some d =>
        rw [hlast] at hc
        cases hc
        exact hstep d hlast
    | cons next rest =>
      rw [body_cons_cons, ← List.cons_append, List.getLast?_append_cons]
      exact ih ⟨fun step hstep => h.1 step (List.mem_cons_of_mem _ hstep), h.2⟩

/-- The texts of the steps of a path that can be told from them start with a name, and not with a
slash. -/
theorem Printable.exists_body_eq_cons (h : path.Printable) (hne : path ≠ []) :
    ∃ c cs, path.body = c :: cs ∧ c ≠ '/' := by
  obtain ⟨step, rest, rfl⟩ := List.exists_cons_of_ne_nil hne
  obtain ⟨c, cs, htext, hc⟩ := Step.exists_text_eq_cons (h.1 step List.mem_cons_self)
  cases rest with
  | nil => exact ⟨c, cs, by simp [body, htext], hc⟩
  | cons next rest => exact ⟨c, _, by rw [body_cons_cons, htext]; rfl, hc⟩

/-- A path that can be told from its text is read from it. -/
theorem Printable.read_text (h : path.Printable)
    (hfits : ∀ n ∈ path.positions, n < positionBound) : read path.text = .ok path := by
  rcases eq_or_ne path [] with rfl | hne
  · rfl
  obtain ⟨c, cs, hbody, hc⟩ := h.exists_body_eq_cons hne
  have htrim : (trim path.text.toList).dropWhile (· = '/') = path.body := by
    rw [toList_text hne, trim_cons (by decide), trimEnd_eq_self h.isBlank_of_mem_getLast?,
      List.dropWhile_cons_of_pos (by decide), hbody, List.dropWhile_cons_of_neg (by simpa using hc)]
  have hcut : cut '/' path.body = path.map fun step => step.text.toList := by
    rw [cut_eq_splitOn, body, List.splitOn_intercalate '/' _ (by simpa using hne)]
    intro segment hsegment
    obtain ⟨step, hstep, rfl⟩ := List.mem_map.mp hsegment
    exact Step.notMem_text (h.1 step hstep)
  have hsteps : readSteps (path.map fun step => step.text.toList) = .ok path := by
    rw [readSteps_eq_ok, List.map_map]
    refine List.map_congr_left fun step hstep => ?_
    exact Step.readStep_text (h.1 step hstep) fun n hn =>
      hfits n (List.mem_flatMap.mpr ⟨step, hstep, hn⟩)
  have hne' : path.body ≠ [] := by simp [hbody]
  simp only [read, htrim, if_neg hne', hcut, hsteps]

/-- A path that is read can be told from its text, and its positions fit. -/
theorem printable_of_read (h : read text = .ok path) :
    path.Printable ∧ ∀ n ∈ path.positions, n < positionBound := by
  unfold read at h
  dsimp only at h
  split at h
  · cases h
    exact ⟨⟨nofun, nofun⟩, nofun⟩
  have hsteps := readSteps_eq_ok.mp h
  have hread : ∀ step ∈ path, step.Printable ∧ ∀ n ∈ step.slot.positions, n < positionBound := by
    intro step hstep
    obtain ⟨segment, hsegment, hread⟩ := List.mem_map.mp (hsteps ▸ List.mem_map_of_mem hstep)
    have hprintable := printable_of_readStep hread (notMem_of_mem_cut hsegment)
    exact ⟨hprintable.1, hprintable.2.1⟩
  refine ⟨⟨fun step hstep => (hread step hstep).1, fun step hlast hslot c hc => ?_⟩, fun n hn => ?_⟩
  · -- The last step is read from the last piece, whose end is that of the trimmed text.
    obtain ⟨segment, hsegment, hread⟩ : ∃ segment ∈ (cut '/' ((trim text.toList).dropWhile
        (· = '/'))).getLast?, readStep segment = some step := by
      have hlasts := congrArg List.getLast? hsteps
      rw [List.getLast?_map, List.getLast?_map, hlast, Option.map_some,
        Option.map_eq_some_iff] at hlasts
      exact hlasts
    have hslash := notMem_of_mem_cut (List.mem_of_getLast? hsegment)
    rw [(printable_of_readStep hread hslash).2.2 hslot] at hc
    obtain ⟨front, hend⟩ := (suffix_of_mem_getLast?_cut hsegment).trans (List.dropWhile_suffix _)
    have hends : c ∈ (trim text.toList).getLast? := by
      rw [← hend]
      exact List.mem_getLast?_append_of_mem_getLast? hc
    exact isBlank_of_mem_getLast?_trim hends
  · obtain ⟨step, hstep, hn⟩ := List.mem_flatMap.mp hn
    exact (hread step hstep).2 n hn

/-- Printing and reading paths undo each other wherever they can. A path that is read from any text
is read again from the text that it is printed as; and a path whose positions fit 64 bits is read
from its own text exactly when it can be told from it: no name is empty or has a slash, a
placeholder's name has no bracket and does not end in a question mark, a name before brackets has
no bracket, and the name of a placeholder at the end does not end in a blank. -/
theorem read_text_iff :
    (∀ text path, read text = .ok path → read path.text = .ok path) ∧
      ∀ path : Path, (∀ n ∈ path.positions, n < positionBound) →
        (read path.text = .ok path ↔ path.Printable) := by
  constructor
  · intro text path h
    obtain ⟨hprintable, hfits⟩ := printable_of_read h
    exact hprintable.read_text hfits
  · intro path hfits
    exact ⟨fun h => (printable_of_read h).1, fun h => h.read_text hfits⟩

/-- A path with a slot of every kind. -/
def everySlot : Path :=
  [⟨"features", .list 2⟩, ⟨"body", .member 0 1⟩, ⟨"base", .optional⟩, ⟨"type", .placeholder⟩]

/-- A path with a slot of every kind, written with blanks, a second slash, a sign and a zero in
front, is read, and read again from its own text. A path with a bracket in the name of an optional
child is read from its text, and one with a question mark in the name of a placeholder is not. -/
theorem read_text_every_slot :
    read " //features[02]/body[+0:1]/base?/type " = .ok everySlot ∧
      read everySlot.text = .ok everySlot ∧
      read (Path.text [⟨"a[0]", .optional⟩]) = .ok [⟨"a[0]", .optional⟩] ∧
      read (Path.text [⟨"a?", .placeholder⟩]) ≠ .ok [⟨"a?", .placeholder⟩] := by
  have hread : read " //features[02]/body[+0:1]/base?/type " = .ok everySlot := by rfl
  have hoptional : Printable [⟨"a[0]", .optional⟩] := by
    refine ⟨fun step hstep => ?_, fun step hstep hslot => ?_⟩
    · cases List.mem_singleton.mp hstep
      exact ⟨by decide, by decide, trivial⟩
    · cases hstep
      cases hslot
  have hplaceholder : ¬ Printable [⟨"a?", .placeholder⟩] := fun h =>
    absurd (h.1 _ List.mem_cons_self).2.2.2 (by decide)
  exact ⟨hread, read_text_iff.1 _ _ hread, (read_text_iff.2 _ (by decide)).mpr hoptional,
    mt (read_text_iff.2 _ (by decide)).mp hplaceholder⟩

end Path

end TreeEditor
