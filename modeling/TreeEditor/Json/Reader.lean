import TreeEditor.Json.Basic

/-!
# Reading JSON

A strict reader: blanks are the space, the tab, the line feed and the carriage return, nothing may
follow the value, a control character may not stand in a string literal, and a number has no
leading zero. Two faults are put off until somebody asks for the value, which then is `garbled`: a
string literal with half of a surrogate pair, and a number too large for a binary64 number.

Each function returns what it read together with the text that is left.
-/

namespace TreeEditor.Json

/-- The blanks between the parts of a value. -/
def isGap (c : Char) : Bool := c = ' ' || c = '\t' || c = '\n' || c = '\r'

/-- A text without the blanks at its front. -/
def skipGap (cs : List Char) : List Char := cs.dropWhile isGap

/-! ## String literals -/

/-- The value of a hexadecimal digit in either case. -/
def hexValue (c : Char) : Option Nat :=
  if '0' ≤ c ∧ c ≤ '9' then some (c.toNat - 0x30)
  else if 'a' ≤ c ∧ c ≤ 'f' then some (c.toNat - 0x57)
  else if 'A' ≤ c ∧ c ≤ 'F' then some (c.toNat - 0x37)
  else none

/-- The number that four hexadecimal digits write. -/
def hexUnit (a b c d : Char) : Option Nat := do
  let a ← hexValue a
  let b ← hexValue b
  let c ← hexValue c
  let d ← hexValue d
  return ((a * 16 + b) * 16 + c) * 16 + d

/-- The code of a character that an escape of one letter stands for. -/
def escapedCode : Char → Option Nat
  | '"' => some 0x22
  | '\\' => some 0x5C
  | '/' => some 0x2F
  | 'b' => some 0x8
  | 'f' => some 0xC
  | 'n' => some 0xA
  | 'r' => some 0xD
  | 't' => some 0x9
  | _ => none

/-- The codes in a string literal whose opening quote is read: one code for a character, one
sixteen-bit unit for a numeric escape. -/
def readCodes : List Char → Option (List Nat × List Char)
  | [] => none
  | '"' :: rest => some ([], rest)
  | '\\' :: 'u' :: a :: b :: c :: d :: rest => do
    let code ← hexUnit a b c d
    let (codes, rest) ← readCodes rest
    return (code :: codes, rest)
  | '\\' :: c :: rest => do
    let code ← escapedCode c
    let (codes, rest) ← readCodes rest
    return (code :: codes, rest)
  | c :: rest =>
    -- Only a backslash that ends the text comes this far.
    if c = '\\' ∨ c.toNat < 0x20 then
      none
    else do
      let (codes, rest) ← readCodes rest
      return (c.toNat :: codes, rest)

/-- The characters that codes stand for; a surrogate must be a leading one followed at once by a
trailing one, and the two give one character. -/
def joinCodes : List Nat → Option (List Char)
  | [] => some []
  | lead :: trail :: rest =>
    if 0xD800 ≤ lead ∧ lead < 0xDC00 then
      if 0xDC00 ≤ trail ∧ trail < 0xE000 then
        (joinCodes rest).map
          (Char.ofNat (0x10000 + (lead - 0xD800) * 0x400 + (trail - 0xDC00)) :: ·)
      else
        none
    else if 0xDC00 ≤ lead ∧ lead < 0xE000 then
      -- A trailing surrogate that no leading one stands in front of.
      none
    else
      (joinCodes (trail :: rest)).map (Char.ofNat lead :: ·)
  | [code] => if 0xD800 ≤ code ∧ code < 0xE000 then none else some [Char.ofNat code]

/-- The text that codes stand for. -/
def textOfCodes (codes : List Nat) : Option String := (joinCodes codes).map String.ofList

/-! ## Numbers -/

/-- A number as it is written. -/
structure Numeral where
  negative : Bool
  /-- The digits before the point. -/
  whole : List Char
  /-- The digits after the point, if there is one. -/
  fraction : Option (List Char)
  /-- The sign and the digits of the power of ten, if there is one. -/
  exponent : Option (Bool × List Char)

/-- A non-empty run of digits. -/
def readRun (cs : List Char) : Option (List Char × List Char) :=
  match cs.takeWhile Char.isDigit with
  | [] => none
  | digits => some (digits, cs.dropWhile Char.isDigit)

/-- The digits before the point: a zero alone, or a run that does not start with one. -/
def readWhole : List Char → Option (List Char × List Char)
  | '0' :: rest => some (['0'], rest)
  | cs => readRun cs

/-- The point and the digits after it. -/
def readFraction : List Char → Option (Option (List Char) × List Char)
  | '.' :: rest => (readRun rest).map fun (digits, rest) => (some digits, rest)
  | cs => some (none, cs)

/-- The power of ten. -/
def readExponent : List Char → Option (Option (Bool × List Char) × List Char)
  | c :: rest =>
    if c = 'e' ∨ c = 'E' then
      match rest with
      | '-' :: rest => (readRun rest).map fun (digits, rest) => (some (true, digits), rest)
      | '+' :: rest => (readRun rest).map fun (digits, rest) => (some (false, digits), rest)
      | rest => (readRun rest).map fun (digits, rest) => (some (false, digits), rest)
    else
      some (none, c :: rest)
  | [] => some (none, [])

/-- A number. -/
def readNumeral (cs : List Char) : Option (Numeral × List Char) := do
  let (negative, cs) := match cs with
    | '-' :: rest => (true, rest)
    | _ => (false, cs)
  let (whole, cs) ← readWhole cs
  let (fraction, cs) ← readFraction cs
  let (exponent, cs) ← readExponent cs
  return (⟨negative, whole, fraction, exponent⟩, cs)

/-- A natural number rounded to 53 binary digits, a tie going to the even neighbour. -/
def roundBinary (n : Nat) : Nat :=
  let unit := Nat.pow 2 (n.log2 - 52)
  let quotient := n / unit
  let excess := n % unit
  let up := 2 * excess > unit ∨ (2 * excess = unit ∧ quotient % 2 = 1)
  if up then (quotient + 1) * unit else quotient * unit

/-- The decimal digits of a number gathered into at most 64 bits. -/
structure Significand where
  value : Nat
  /-- The power of ten that the value is to be multiplied with. -/
  scale : Int
  /-- A digit did not fit any more. -/
  full : Bool

/-- A digit before the point; one that no longer fits still counts as a power of ten. -/
def Significand.addWhole (s : Significand) (digit : Char) : Significand :=
  let value := s.value * 10 + (digit.toNat - 0x30)
  if s.full ∨ Nat.pow 2 64 ≤ value then { s with scale := s.scale + 1, full := true }
  else { s with value }

/-- A digit after the point; one that no longer fits ends the significand. -/
def Significand.addFraction (s : Significand) (digit : Char) : Significand :=
  let value := s.value * 10 + (digit.toNat - 0x30)
  if s.full ∨ Nat.pow 2 64 ≤ value then { s with full := true }
  else { s with value, scale := s.scale - 1 }

/-- The significand of a number, its power of ten included. -/
def Numeral.significand (n : Numeral) : Significand :=
  let whole := n.whole.foldl Significand.addWhole ⟨0, 0, false⟩
  let all := (n.fraction.getD []).foldl Significand.addFraction { whole with full := false }
  match n.exponent with
  | none => all
  | some (negative, digits) =>
    let power : Int := Nat.ofDigitChars 10 digits 0
    { all with scale := if negative then all.scale - power else all.scale + power }

/-- The largest power of ten that is a binary64 number. -/
def largestPower : Nat := 308

/-- A number is finite when its rounded significand times its rounded power of ten stays below
every value that rounds to infinity. -/
def Numeral.isFinite (n : Numeral) : Bool :=
  let s := n.significand
  -- A negative power of ten only makes the significand smaller.
  s.value = 0 || s.scale < 0 ||
    (s.scale ≤ largestPower &&
      roundBinary s.value * roundBinary (Nat.pow 10 s.scale.toNat) < Nat.pow 2 1024 - Nat.pow 2 970)

/-- The value that a number stands for. -/
def Numeral.toJson (n : Numeral) : Json :=
  let other := if n.isFinite then Json.real else Json.garbled
  if n.fraction.isSome || n.exponent.isSome then
    other
  else
    let size := Nat.ofDigitChars 10 n.whole 0
    if n.negative then
      if 0 < size ∧ size ≤ Nat.pow 2 63 then .int (-size) else other
    else
      if size < Nat.pow 2 64 then .int size else other

/-! ## Values -/

/-- An object of members some of whose names may be garbled; then the object is garbled too. -/
def ofMembers (members : List (Option String × Json)) : Json :=
  match members.mapM fun member => member.1.map (·, member.2) with
  | some members => .obj members
  | none => .garbled

mutual

/-- A value, blanks in front of it included. -/
def readValue : Nat → List Char → Option (Json × List Char)
  | 0, _ => none
  | fuel + 1, cs =>
    match skipGap cs with
    | 'n' :: 'u' :: 'l' :: 'l' :: rest => some (.null, rest)
    | 't' :: 'r' :: 'u' :: 'e' :: rest => some (.bool true, rest)
    | 'f' :: 'a' :: 'l' :: 's' :: 'e' :: rest => some (.bool false, rest)
    | '"' :: rest => (readCodes rest).map fun (codes, rest) =>
      (((textOfCodes codes).map Json.str).getD .garbled, rest)
    | '[' :: rest =>
      match skipGap rest with
      | ']' :: rest => some (.arr [], rest)
      | _ => (readItems fuel rest).map fun (items, rest) => (.arr items, rest)
    | '\x7b' :: rest =>
      match skipGap rest with
      | '\x7d' :: rest => some (.obj [], rest)
      | _ => (readMembers fuel rest).map fun (members, rest) => (ofMembers members, rest)
    | rest => (readNumeral rest).map fun (numeral, rest) => (numeral.toJson, rest)

/-- The items of an array, at least one, up to its closing bracket. -/
def readItems : Nat → List Char → Option (List Json × List Char)
  | 0, _ => none
  | fuel + 1, cs => do
    let (item, rest) ← readValue fuel cs
    match skipGap rest with
    | ']' :: rest => return ([item], rest)
    | ',' :: rest =>
      let (items, rest) ← readItems fuel rest
      return (item :: items, rest)
    | _ => none

/-- The members of an object, at least one, up to its closing brace. -/
def readMembers : Nat → List Char → Option (List (Option String × Json) × List Char)
  | 0, _ => none
  | fuel + 1, cs =>
    match skipGap cs with
    | '"' :: rest => do
      let (codes, rest) ← readCodes rest
      let name := textOfCodes codes
      match skipGap rest with
      | ':' :: rest =>
        let (value, rest) ← readValue fuel rest
        match skipGap rest with
        | '\x7d' :: rest => return ([(name, value)], rest)
        | ',' :: rest =>
          let (members, rest) ← readMembers fuel rest
          return ((name, value) :: members, rest)
        | _ => none
      | _ => none
    | _ => none

end

/-- The value that a whole text holds. Two steps for each character are always enough, since every
second step reads at least one. -/
def parse (text : String) : Option Json := do
  let cs := text.toList
  let (value, rest) ← readValue (2 * cs.length + 2) cs
  if skipGap rest = [] then return value else none

end TreeEditor.Json
