import Mathlib
import TreeEditor.Json.Printer
import TreeEditor.Json.Reader

/-!
# Reading back the text of a value

The compact text of a JSON value holds all of the value that can be written at all, so reading the
text gives the value back (`Json.parse_compact`). What stands after a value is left over by the
reader as it is by the writer. Only a number needs something after it that does not go on with it
(`Json.Ends`); commas and closing brackets do not, nor does the end of the text.

The reader's bound on its steps is met because every second step reads a character.
-/

namespace TreeEditor.Json

/-! ## What is kept -/

/-- All of a value stands in its text: its integers fit 64 bits, and no part of it is garbled or a
number that is not kept. -/
inductive Kept : Json → Prop where
  | null : Kept .null
  | bool (value : Bool) : Kept (.bool value)
  | int {value : Int} (low : -2 ^ 63 ≤ value) (high : value < 2 ^ 64) : Kept (.int value)
  | str (value : String) : Kept (.str value)
  | arr {items : List Json} (kept : ∀ item ∈ items, Kept item) : Kept (.arr items)
  | obj {members : List (String × Json)} (kept : ∀ member ∈ members, Kept member.2) :
    Kept (.obj members)

/-- A text does not go on with a number that stands in front of it. -/
def Ends (rest : List Char) : Prop :=
  ∀ c ∈ rest.head?, c.isDigit = false ∧ c ≠ '.' ∧ c ≠ 'e' ∧ c ≠ 'E'

/-- A number ends with the text. -/
theorem ends_nil : Ends [] := nofun

/-- A number ends before a comma. -/
theorem ends_comma (rest : List Char) : Ends (',' :: rest) := by
  simp [Ends]

/-- A number ends before a closing bracket. -/
theorem ends_bracket (rest : List Char) : Ends (']' :: rest) := by
  simp [Ends]

/-- A number ends before a closing brace. -/
theorem ends_brace (rest : List Char) : Ends ('\x7d' :: rest) := by
  simp [Ends]

/-! ## String literals -/

/-- The digits of the controls below the space are read back. -/
theorem hexUnit_hexDigit (code : Nat) (h : code < 0x20) :
    hexUnit '0' '0' (hexDigit (code / 16)) (hexDigit (code % 16)) = some code := by
  revert code
  decide

/-- A code is put in front of those that are read from the rest. -/
def codeThen (code : Nat) (read : Option (List Nat × List Char)) :
    Option (List Nat × List Char) :=
  read.map fun (codes, left) => (code :: codes, left)

/-- The escape of a control is read as its code. -/
theorem readCodes_unit {code : Nat} (h : code < 0x20) (rest : List Char) :
    readCodes ('\\' :: 'u' :: '0' :: '0' :: hexDigit (code / 16) :: hexDigit (code % 16) :: rest) =
      codeThen code (readCodes rest) := by
  change (hexUnit '0' '0' (hexDigit (code / 16)) (hexDigit (code % 16)) >>= fun code =>
    readCodes rest >>= fun (codes, left) => some (code :: codes, left)) = _
  rw [hexUnit_hexDigit code h, codeThen]
  cases readCodes rest <;> rfl

/-- An escape of one letter is read as the code that it stands for. -/
theorem readCodes_escape {c : Char} {code : Nat} (h : escapedCode c = some code)
    (rest : List Char) : readCodes ('\\' :: c :: rest) = codeThen code (readCodes rest) := by
  have hunit : c ≠ 'u' := by
    rintro rfl
    cases h
  rw [readCodes, h, codeThen]
  · cases readCodes rest <;> rfl
  · rintro _ _ _ _ _ rfl
    exact absurd rfl hunit

/-- A character that stands for itself is read as its code. -/
theorem readCodes_plain {c : Char} (hquote : c ≠ '"') (hslash : c ≠ '\\')
    (hcontrol : ¬ c.toNat < 0x20) (rest : List Char) :
    readCodes (c :: rest) = codeThen c.toNat (readCodes rest) := by
  rw [readCodes, if_neg (not_or.mpr ⟨hslash, hcontrol⟩), codeThen]
  · cases readCodes rest <;> rfl
  · exact hquote
  · rintro _ _ _ _ _ rfl
    exact absurd rfl hslash
  · rintro _ _ rfl
    exact absurd rfl hslash

/-- The code of a written character is read back. -/
theorem readCodes_writeChar (c : Char) (rest : List Char) :
    readCodes (writeChar c rest) = codeThen c.toNat (readCodes rest) := by
  unfold writeChar
  split_ifs with hquote hslash hback hfeed hline hreturn htab hcontrol
  · subst hquote; exact readCodes_escape rfl rest
  · subst hslash; exact readCodes_escape rfl rest
  · subst hback; exact readCodes_escape rfl rest
  · subst hfeed; exact readCodes_escape rfl rest
  · subst hline; exact readCodes_escape rfl rest
  · subst hreturn; exact readCodes_escape rfl rest
  · subst htab; exact readCodes_escape rfl rest
  · exact readCodes_unit hcontrol rest
  · exact readCodes_plain hquote hslash hcontrol rest

/-- The codes of a string literal are read up to its closing quote. -/
theorem readCodes_foldr (cs : List Char) (rest : List Char) :
    readCodes (cs.foldr writeChar ('"' :: rest)) = some (cs.map Char.toNat, rest) := by
  induction cs with
  | nil => rfl
  | cons c cs ih => rw [List.foldr_cons, readCodes_writeChar, ih]; rfl

/-- The codes of characters stand for these characters: none of them is half of a surrogate
pair. -/
theorem joinCodes_toNat (cs : List Char) : joinCodes (cs.map Char.toNat) = some cs := by
  have hcode (c : Char) : ¬ (0xD800 ≤ c.toNat ∧ c.toNat < 0xE000) := by
    have := c.valid
    simp only [UInt32.isValidChar, Nat.isValidChar] at this
    change ¬ (0xD800 ≤ c.val.toNat ∧ c.val.toNat < 0xE000)
    omega
  induction cs with
  | nil => rfl
  | cons c cs ih =>
    have hc := hcode c
    cases cs with
    | nil =>
      rw [List.map_cons, List.map_nil, joinCodes, if_neg hc, Char.ofNat_toNat]
    | cons d cs =>
      rw [List.map_cons, List.map_cons, joinCodes, if_neg (by omega), if_neg (by omega),
        ← List.map_cons, ih, Char.ofNat_toNat]
      rfl

/-- A text is what the codes of its characters stand for. -/
theorem textOfCodes_toNat (s : String) : textOfCodes (s.toList.map Char.toNat) = some s := by
  rw [textOfCodes, joinCodes_toNat]
  simp

/-! ## Numbers -/

/-- The digits of a number are read up to the end of the number. -/
theorem readRun_append {digits rest : List Char} (hdigits : ∀ c ∈ digits, c.isDigit)
    (hne : digits ≠ []) (hrest : Ends rest) :
    readRun (digits ++ rest) = some (digits, rest) := by
  have htake : (digits ++ rest).takeWhile Char.isDigit = digits ∧
      (digits ++ rest).dropWhile Char.isDigit = rest := by
    rw [List.takeWhile_append_of_pos hdigits, List.dropWhile_append_of_pos hdigits]
    cases rest with
    | nil => simp
    | cons c rest => simp [(hrest c rfl).1]
  rw [readRun, htake.1, htake.2]
  cases digits with
  | nil => exact absurd rfl hne
  | cons c digits => rfl

/-- The digits of a number that is not zero do not start with a zero. -/
theorem head_toDigits {n : Nat} (h : 0 < n) : ∀ c ∈ (Nat.toDigits 10 n).head?, c ≠ '0' := by
  induction n using Nat.strong_induction_on with
  | _ n ih =>
    rw [Nat.toDigits_eq_if (by decide)]
    split
    · rintro c hc rfl
      rw [List.head?_cons, Option.mem_some_iff, Nat.digitChar_eq_zero] at hc
      omega
    · rw [List.head?_append_of_ne_nil _ Nat.toDigits_ne_nil]
      exact ih (n / 10) (by omega) (by omega)

/-- The digits of a natural number are read as they are. -/
theorem readWhole_toDigits (n : Nat) {rest : List Char} (hrest : Ends rest) :
    readWhole (Nat.toDigits 10 n ++ rest) = some (Nat.toDigits 10 n, rest) := by
  rcases Nat.eq_zero_or_pos n with rfl | hpos
  · rw [Nat.toDigits_zero]
    rfl
  · have hhead := head_toDigits hpos
    have hdigits : ∀ c ∈ Nat.toDigits 10 n, c.isDigit := fun c =>
      Nat.isDigit_of_mem_toDigits (by decide) (by decide)
    rw [readWhole, readRun_append hdigits Nat.toDigits_ne_nil hrest]
    intro left heq
    cases hfound : Nat.toDigits 10 n with
    | nil => exact absurd hfound Nat.toDigits_ne_nil
    | cons c digits =>
      rw [hfound, List.cons_append, List.cons.injEq] at heq
      exact hhead c (by rw [hfound]; rfl) heq.1

/-- After the digits of an integer comes no fraction. -/
theorem readFraction_of_ends {rest : List Char} (hrest : Ends rest) :
    readFraction rest = some (none, rest) := by
  cases rest with
  | nil => rfl
  | cons c rest =>
    rw [readFraction]
    rintro _ heq
    exact (hrest c rfl).2.1 (List.cons.inj heq).1

/-- After the digits of an integer comes no power of ten. -/
theorem readExponent_of_ends {rest : List Char} (hrest : Ends rest) :
    readExponent rest = some (none, rest) := by
  cases rest with
  | nil => rfl
  | cons c rest =>
    obtain ⟨-, -, he, hE⟩ := hrest c rfl
    exact if_neg (not_or.mpr ⟨he, hE⟩)

/-- The digits of a natural number are read as a number without a sign. -/
theorem readNumeral_toDigits (n : Nat) {rest : List Char} (hrest : Ends rest) :
    readNumeral (Nat.toDigits 10 n ++ rest) =
      some (⟨false, Nat.toDigits 10 n, none, none⟩, rest) := by
  have hwhole := readWhole_toDigits n hrest
  -- A digit is no sign, so the number is not read as a negative one.
  have hsign : ∀ left, Nat.toDigits 10 n ++ rest ≠ '-' :: left := by
    intro left heq
    cases hfound : Nat.toDigits 10 n with
    | nil => exact Nat.toDigits_ne_nil hfound
    | cons c digits =>
      rw [hfound, List.cons_append, List.cons.injEq] at heq
      have hdigit : c.isDigit = true := Nat.isDigit_of_mem_toDigits (b := 10) (n := n) (by decide)
        (by decide) (hfound ▸ List.mem_cons_self)
      rw [heq.1] at hdigit
      cases hdigit
  generalize Nat.toDigits 10 n ++ rest = cs at hwhole hsign
  unfold readNumeral
  split
  · rename_i left heq
    split at heq
    · exact absurd rfl (hsign _)
    · cases heq
      simp only [hwhole, Option.bind_eq_bind, Option.bind_some, readFraction_of_ends hrest,
        readExponent_of_ends hrest]
      rfl

/-- The digits of a natural number after a minus sign are read as a number with a sign. -/
theorem readNumeral_minus (n : Nat) {rest : List Char} (hrest : Ends rest) :
    readNumeral ('-' :: (Nat.toDigits 10 n ++ rest)) =
      some (⟨true, Nat.toDigits 10 n, none, none⟩, rest) := by
  unfold readNumeral
  simp only [readWhole_toDigits n hrest, Option.bind_eq_bind, Option.bind_some,
    readFraction_of_ends hrest, readExponent_of_ends hrest]
  rfl

/-- A written integer is read back. -/
theorem readNumeral_writeInt {n : Int} (low : -2 ^ 63 ≤ n) (high : n < 2 ^ 64)
    {rest : List Char} (hrest : Ends rest) :
    ∃ numeral, readNumeral (writeInt n rest) = some (numeral, rest) ∧ numeral.toJson = .int n := by
  cases n with
  | ofNat k =>
    refine ⟨_, readNumeral_toDigits k hrest, ?_⟩
    have hfits : k < Nat.pow 2 64 := by
      change (k : Int) < 2 ^ 64 at high
      change k < 2 ^ 64
      omega
    simp only [Numeral.toJson, Nat.ofDigitChars_ten_toDigits, Option.isSome_none, Bool.or_self,
      Bool.false_eq_true, if_false, if_pos hfits]
    rfl
  | negSucc k =>
    refine ⟨_, readNumeral_minus (k + 1) hrest, ?_⟩
    have hfits : 0 < k + 1 ∧ k + 1 ≤ Nat.pow 2 63 := by
      refine ⟨Nat.succ_pos k, ?_⟩
      change k + 1 ≤ 2 ^ 63
      omega
    simp only [Numeral.toJson, Nat.ofDigitChars_ten_toDigits, Option.isSome_none, Bool.or_self,
      Bool.false_eq_true, if_false, if_true, if_pos hfits]
    rfl

/-! ## Values -/

/-- A text that starts with no blank has none to be skipped. -/
theorem skipGap_cons {c : Char} (h : isGap c = false) (cs : List Char) :
    skipGap (c :: cs) = c :: cs := by
  rw [skipGap, List.dropWhile_cons, h]
  rfl

/-- A text that starts with a digit or a minus sign is read as a number. -/
theorem readValue_numeral {c : Char} (h : c.isDigit ∨ c = '-') (fuel : Nat) (cs : List Char) :
    readValue (fuel + 1) (c :: cs) =
      (readNumeral (c :: cs)).map fun (numeral, rest) => (numeral.toJson, rest) := by
  have hother : ∀ d, d.isDigit = false → d ≠ '-' → c ≠ d := by
    rintro d hdigit hminus rfl
    rcases h with h | h
    · rw [hdigit] at h
      cases h
    · exact hminus h
  have hgap : isGap c = false := by
    simp [isGap, hother ' ' rfl (by decide), hother '\t' rfl (by decide),
      hother '\n' rfl (by decide), hother '\r' rfl (by decide)]
  rw [readValue, skipGap_cons hgap]
  split
  · rename_i heq; exact absurd (List.cons.inj heq).1 (hother 'n' rfl (by decide))
  · rename_i heq; exact absurd (List.cons.inj heq).1 (hother 't' rfl (by decide))
  · rename_i heq; exact absurd (List.cons.inj heq).1 (hother 'f' rfl (by decide))
  · rename_i heq; exact absurd (List.cons.inj heq).1 (hother '"' rfl (by decide))
  · rename_i heq; exact absurd (List.cons.inj heq).1 (hother '[' rfl (by decide))
  · rename_i heq; exact absurd (List.cons.inj heq).1 (hother '\x7b' rfl (by decide))
  · rfl

/-- A quote begins a string literal. -/
theorem readValue_quote (fuel : Nat) (cs : List Char) :
    readValue (fuel + 1) ('"' :: cs) = (readCodes cs).map fun (codes, rest) =>
      (((textOfCodes codes).map Json.str).getD .garbled, rest) := rfl

/-- An opening bracket begins an array, whose items follow unless it is closed at once. -/
theorem readValue_bracket {c : Char} (hgap : isGap c = false) (hc : c ≠ ']') (fuel : Nat)
    (cs : List Char) : readValue (fuel + 1) ('[' :: c :: cs) =
      (readItems fuel (c :: cs)).map fun (items, rest) => (.arr items, rest) := by
  have hopen : skipGap ('[' :: c :: cs) = '[' :: c :: cs := rfl
  rw [readValue, hopen]
  split
  case h_5 rest heq =>
    obtain rfl : c :: cs = rest := (List.cons.inj heq).2
    rw [skipGap_cons hgap]
    split
    · rename_i heq
      exact absurd (List.cons.inj heq).1 hc
    · rfl
  all_goals simp_all

/-- An opening brace begins an object; a quote after it begins the name of its first member. -/
theorem readValue_brace (fuel : Nat) (cs : List Char) :
    readValue (fuel + 1) ('\x7b' :: '"' :: cs) =
      (readMembers fuel ('"' :: cs)).map fun (members, rest) => (ofMembers members, rest) := rfl

/-- An item that the closing bracket follows is the last one. -/
theorem readItems_last {fuel : Nat} {cs rest : List Char} {item : Json}
    (h : readValue fuel cs = some (item, ']' :: rest)) :
    readItems (fuel + 1) cs = some ([item], rest) := by
  rw [readItems, h]
  rfl

/-- After a comma there are further items. -/
theorem readItems_more {fuel : Nat} {cs rest left : List Char} {item : Json} {items : List Json}
    (h : readValue fuel cs = some (item, ',' :: rest))
    (hrest : readItems fuel rest = some (items, left)) :
    readItems (fuel + 1) cs = some (item :: items, left) := by
  rw [readItems, h]
  change (readItems fuel rest >>= fun (items, rest) => return (item :: items, rest)) = _
  rw [hrest]
  rfl

/-- The name of a member is read up to the colon, and after it the value. -/
theorem readMembers_name (fuel : Nat) (name : String) (cs : List Char) :
    readMembers (fuel + 1) (writeString name (':' :: cs)) = (do
      let (value, rest) ← readValue fuel cs
      match skipGap rest with
      | '\x7d' :: rest => return ([(some name, value)], rest)
      | ',' :: rest =>
        let (members, rest) ← readMembers fuel rest
        return ((some name, value) :: members, rest)
      | _ => none) := by
  rw [readMembers, writeString, skipGap_cons rfl]
  change (readCodes (name.toList.foldr writeChar ('"' :: ':' :: cs)) >>= _) = _
  rw [readCodes_foldr, Option.bind_eq_bind, Option.bind_some]
  dsimp only
  rw [textOfCodes_toNat]
  rfl

/-- A member that the closing brace follows is the last one. -/
theorem readMembers_last {fuel : Nat} {cs rest : List Char} {value : Json} (name : String)
    (h : readValue fuel cs = some (value, '\x7d' :: rest)) :
    readMembers (fuel + 1) (writeString name (':' :: cs)) = some ([(some name, value)], rest) := by
  rw [readMembers_name, h]
  rfl

/-- After a comma there are further members. -/
theorem readMembers_more {fuel : Nat} {cs rest left : List Char} {value : Json} (name : String)
    {members : List (Option String × Json)} (h : readValue fuel cs = some (value, ',' :: rest))
    (hrest : readMembers fuel rest = some (members, left)) :
    readMembers (fuel + 1) (writeString name (':' :: cs)) =
      some ((some name, value) :: members, left) := by
  rw [readMembers_name, h]
  change (readMembers fuel rest >>= fun (members, rest) =>
    return ((some name, value) :: members, rest)) = _
  rw [hrest]
  rfl

/-- An object whose names are all there is the object of its members. -/
theorem ofMembers_some (members : List (String × Json)) :
    ofMembers (members.map fun member => (some member.1, member.2)) = .obj members := by
  have hall : (members.map fun member => (some member.1, member.2)).mapM
      (fun member => member.1.map (·, member.2)) = some members := by
    induction members with
    | nil => rfl
    | cons member members ih =>
      rw [List.map_cons, List.mapM_cons, ih]
      rfl
  rw [ofMembers, hall]

/-! ## Texts of values -/

/-- A text is what is written of a value, and the value is what is read of the text. -/
structure Reads (value : Json) (cs : List Char) : Prop where
  written : ∀ rest, write value rest = cs ++ rest
  /-- The text is not taken for a blank or for the end of an array. -/
  starts : ∃ c tail, cs = c :: tail ∧ isGap c = false ∧ c ≠ ']'
  read : ∀ fuel rest, 2 * cs.length ≤ fuel → Ends rest →
    readValue fuel (cs ++ rest) = some (value, rest)

/-- A text is what is written of the items of an array, and they are what is read of it. -/
structure ReadsItems (item : Json) (items : List Json) (cs : List Char) : Prop where
  written : ∀ rest, write item (writeItems items (']' :: rest)) = cs ++ ']' :: rest
  starts : ∃ c tail, cs = c :: tail ∧ isGap c = false ∧ c ≠ ']'
  read : ∀ fuel rest, 2 * cs.length < fuel →
    readItems fuel (cs ++ ']' :: rest) = some (item :: items, rest)

/-- A text is what is written of the members of an object, and they are what is read of it. -/
structure ReadsMembers (member : String × Json) (members : List (String × Json))
    (cs : List Char) : Prop where
  written : ∀ rest, writeString member.1
    (':' :: write member.2 (writeMembers members ('\x7d' :: rest))) = cs ++ '\x7d' :: rest
  starts : ∃ tail, cs = '"' :: tail
  read : ∀ fuel rest, 2 * cs.length < fuel →
    readMembers fuel (cs ++ '\x7d' :: rest) =
      some ((member :: members).map fun member => (some member.1, member.2), rest)

/-- The items of an array are read back. -/
theorem exists_readsItems {item : Json} {items : List Json}
    (h : ∀ value ∈ item :: items, ∃ cs, Reads value cs) : ∃ cs, ReadsItems item items cs := by
  induction items generalizing item with
  | nil =>
    obtain ⟨cs, hitem⟩ := h item List.mem_cons_self
    refine ⟨cs, fun rest => hitem.written _, hitem.starts, fun fuel rest hfuel => ?_⟩
    obtain ⟨fuel, rfl⟩ : ∃ less, fuel = less + 1 := ⟨fuel - 1, by omega⟩
    exact readItems_last (hitem.read fuel _ (by omega) (ends_bracket rest))
  | cons next items ih =>
    obtain ⟨cs, hitem⟩ := h item List.mem_cons_self
    obtain ⟨more, hrest⟩ := ih (fun value hvalue => h value (List.mem_cons_of_mem _ hvalue))
    refine ⟨cs ++ ',' :: more, fun rest => ?_, ?_, fun fuel rest hfuel => ?_⟩
    · rw [writeItems, hitem.written, hrest.written, List.append_assoc, List.cons_append]
    · obtain ⟨c, tail, rfl, hc⟩ := hitem.starts
      exact ⟨c, _, rfl, hc⟩
    · rw [List.length_append, List.length_cons] at hfuel
      obtain ⟨fuel, rfl⟩ : ∃ less, fuel = less + 1 := ⟨fuel - 1, by omega⟩
      rw [List.append_assoc, List.cons_append]
      exact readItems_more (hitem.read fuel _ (by omega) (ends_comma _))
        (hrest.read fuel rest (by omega))

/-- What is written of a string literal stands in front of the rest. -/
theorem writeString_append (s : String) (rest : List Char) :
    writeString s rest = writeString s [] ++ rest := by
  have hchar (c : Char) (left : List Char) : writeChar c left = writeChar c [] ++ left := by
    unfold writeChar
    split_ifs <;> rfl
  have hall (cs left : List Char) :
      cs.foldr writeChar (left ++ rest) = cs.foldr writeChar left ++ rest := by
    induction cs with
    | nil => rfl
    | cons c cs ih =>
      rw [List.foldr_cons, List.foldr_cons, ih, hchar, hchar c (cs.foldr writeChar left),
        List.append_assoc]
  rw [writeString, writeString, List.cons_append, ← hall]
  rfl

/-- The members of an object are read back. -/
theorem exists_readsMembers {member : String × Json} {members : List (String × Json)}
    (h : ∀ entry ∈ member :: members, ∃ cs, Reads entry.2 cs) :
    ∃ cs, ReadsMembers member members cs := by
  -- By induction on the members; a comma or the closing brace ends the value before it.
  induction members generalizing member with
  | nil =>
    obtain ⟨cs, hvalue⟩ := h member List.mem_cons_self
    have htext (left : List Char) : writeString member.1 (':' :: cs) ++ left =
        writeString member.1 (':' :: (cs ++ left)) := by
      rw [writeString_append, List.append_assoc, ← writeString_append, List.cons_append]
    refine ⟨writeString member.1 (':' :: cs), fun rest => ?_, ⟨_, rfl⟩, fun fuel rest hfuel => ?_⟩
    · rw [writeMembers, hvalue.written, htext]
    · rw [writeString_append, List.length_append, List.length_cons] at hfuel
      obtain ⟨fuel, rfl⟩ : ∃ less, fuel = less + 1 := ⟨fuel - 1, by omega⟩
      rw [htext]
      exact readMembers_last member.1 (hvalue.read fuel _ (by omega) (ends_brace rest))
  | cons next members ih =>
    obtain ⟨cs, hvalue⟩ := h member List.mem_cons_self
    obtain ⟨more, hrest⟩ := ih (fun entry hentry => h entry (List.mem_cons_of_mem _ hentry))
    have htext (left : List Char) : writeString member.1 (':' :: (cs ++ ',' :: more)) ++ left =
        writeString member.1 (':' :: (cs ++ ',' :: (more ++ left))) := by
      rw [writeString_append, List.append_assoc, ← writeString_append, List.cons_append,
        List.append_assoc, List.cons_append]
    refine ⟨writeString member.1 (':' :: (cs ++ ',' :: more)), fun rest => ?_, ⟨_, rfl⟩,
      fun fuel rest hfuel => ?_⟩
    · rw [writeMembers, hvalue.written, hrest.written, htext]
    · rw [writeString_append, List.length_append, List.length_cons, List.length_append,
        List.length_cons] at hfuel
      obtain ⟨fuel, rfl⟩ : ∃ less, fuel = less + 1 := ⟨fuel - 1, by omega⟩
      rw [htext]
      exact readMembers_more member.1 (hvalue.read fuel _ (by omega) (ends_comma _))
        (hrest.read fuel rest (by omega))

/-- A value whose text has at least two characters and is read in one go is read back. -/
theorem reads_of_read {value : Json} {c : Char} {tail : List Char} (hgap : isGap c = false)
    (hc : c ≠ ']') (hwritten : ∀ rest, write value rest = c :: tail ++ rest)
    (hread : ∀ fuel rest, 2 * (c :: tail).length ≤ fuel + 1 → Ends rest →
      readValue (fuel + 1) (c :: tail ++ rest) = some (value, rest)) : Reads value (c :: tail) := by
  refine ⟨hwritten, ⟨c, tail, rfl, hgap, hc⟩, fun fuel rest hfuel hrest => ?_⟩
  have hpos := hfuel
  rw [List.length_cons] at hpos
  obtain ⟨fuel, rfl⟩ : ∃ less, fuel = less + 1 := ⟨fuel - 1, by omega⟩
  exact hread fuel rest hfuel hrest

/-- The digits of a natural number are what is read of them. -/
theorem reads_int {n : Int} (low : -2 ^ 63 ≤ n) (high : n < 2 ^ 64) :
    ∃ cs, Reads (.int n) cs := by
  obtain ⟨c, tail, hwritten, hc⟩ : ∃ c tail, (∀ rest, writeInt n rest = c :: tail ++ rest) ∧
      (c.isDigit ∨ c = '-') := by
    cases n with
    | ofNat k =>
      cases hfound : Nat.toDigits 10 k with
      | nil => exact absurd hfound Nat.toDigits_ne_nil
      | cons c digits =>
        refine ⟨c, digits, fun rest => by rw [writeInt, hfound], .inl ?_⟩
        exact Nat.isDigit_of_mem_toDigits (b := 10) (n := k) (by decide) (by decide)
          (hfound ▸ List.mem_cons_self)
    | negSucc k => exact ⟨'-', Nat.toDigits 10 (k + 1), fun rest => rfl, .inr rfl⟩
  -- What begins with a digit or a sign is neither blank nor the end of a list.
  have hplain : isGap c = false ∧ c ≠ ']' := by
    constructor
    · rcases hc with hc | rfl
      · by_contra hgap
        rw [Bool.not_eq_false] at hgap
        simp only [isGap, Bool.or_eq_true, decide_eq_true_eq] at hgap
        rcases hgap with ((rfl | rfl) | rfl) | rfl <;> cases hc
      · rfl
    · rintro rfl
      rcases hc with hc | hc <;> cases hc
  refine ⟨c :: tail, reads_of_read hplain.1 hplain.2 (fun rest => ?_) fun fuel rest _ hrest => ?_⟩
  · rw [write, hwritten]
  · obtain ⟨numeral, hread, hvalue⟩ := readNumeral_writeInt low high hrest
    rw [hwritten] at hread
    rw [List.cons_append, readValue_numeral hc, ← List.cons_append, hread, ← hvalue]
    rfl

/-- A value of which all is kept is read back. -/
theorem Kept.exists_reads {value : Json} (h : value.Kept) : ∃ cs, Reads value cs := by
  -- By induction on the value: each kind is told by its first character when it is read.
  induction h with
  | null =>
    exact ⟨['n', 'u', 'l', 'l'], reads_of_read rfl (by decide) (fun rest => rfl)
      fun fuel rest _ _ => by rw [readValue]; rfl⟩
  | bool value =>
    cases value with
    | true =>
      exact ⟨['t', 'r', 'u', 'e'], reads_of_read rfl (by decide) (fun rest => rfl)
        fun fuel rest _ _ => by rw [readValue]; rfl⟩
    | false =>
      exact ⟨['f', 'a', 'l', 's', 'e'], reads_of_read rfl (by decide) (fun rest => rfl)
        fun fuel rest _ _ => by rw [readValue]; rfl⟩
  | int low high => exact reads_int low high
  | str s =>
    refine ⟨writeString s [], reads_of_read rfl (by decide) (writeString_append s)
      fun fuel rest _ _ => ?_⟩
    change readValue (fuel + 1) (writeString s [] ++ rest) = _
    rw [← writeString_append, writeString, readValue_quote, readCodes_foldr, Option.map_some]
    dsimp only
    rw [textOfCodes_toNat]
    rfl
  | @arr items kept ih =>
    cases items with
    | nil =>
      exact ⟨['[', ']'], reads_of_read rfl (by decide) (fun rest => rfl)
        fun fuel rest _ _ => by rw [readValue]; rfl⟩
    | cons item items =>
      obtain ⟨cs, hitems⟩ := exists_readsItems ih
      refine ⟨'[' :: (cs ++ [']']), reads_of_read rfl (by decide) (fun rest => ?_)
        fun fuel rest hfuel _ => ?_⟩
      · rw [write, hitems.written, List.cons_append, List.append_assoc, List.singleton_append]
      · rw [List.length_cons, List.length_append, List.length_singleton] at hfuel
        have hread := hitems.read fuel rest (by omega)
        obtain ⟨c, tail, rfl, hgap, hc⟩ := hitems.starts
        rw [List.cons_append, List.append_assoc, List.singleton_append, List.cons_append,
          readValue_bracket hgap hc, ← List.cons_append, hread]
        rfl
  | @obj members kept ih =>
    cases members with
    | nil =>
      exact ⟨['\x7b', '\x7d'], reads_of_read rfl (by decide) (fun rest => rfl)
        fun fuel rest _ _ => by rw [readValue]; rfl⟩
    | cons member members =>
      obtain ⟨cs, hmembers⟩ := exists_readsMembers ih
      refine ⟨'\x7b' :: (cs ++ ['\x7d']), reads_of_read rfl (by decide) (fun rest => ?_)
        fun fuel rest hfuel _ => ?_⟩
      · obtain ⟨name, value⟩ := member
        rw [write, hmembers.written, List.cons_append, List.append_assoc, List.singleton_append]
      · rw [List.length_cons, List.length_append, List.length_singleton] at hfuel
        have hread := hmembers.read fuel rest (by omega)
        obtain ⟨tail, rfl⟩ := hmembers.starts
        rw [List.cons_append, List.append_assoc, List.singleton_append, List.cons_append,
          readValue_brace, ← List.cons_append, hread, ← ofMembers_some]
        rfl

/-- The compact text of a value of which all is kept holds the value. -/
theorem parse_compact {value : Json} (h : value.Kept) : parse value.compact = some value := by
  obtain ⟨cs, hreads⟩ := h.exists_reads
  have htext : value.compact.toList = cs := by
    rw [compact, hreads.written, List.append_nil, String.toList_ofList]
  have hread := hreads.read (2 * cs.length + 2) [] (by omega) ends_nil
  rw [List.append_nil] at hread
  rw [parse, htext]
  simp only [hread, Option.bind_eq_bind, Option.bind_some]
  rfl

end TreeEditor.Json
