/-!
# Decimal numerals

Reading a position: decimal digits, possibly after a plus sign, of a number below `2^64`. Leading
zeros are accepted, a minus sign, a blank or an empty text are not.
-/

namespace TreeEditor.Text

/-- The first number that no longer fits a position. -/
def positionBound : Nat := Nat.pow 2 64

/-- The number that a non-empty run of decimal digits writes. -/
def readDigits (cs : List Char) : Option Nat :=
  if cs ≠ [] ∧ cs.all Char.isDigit then some (Nat.ofDigitChars 10 cs 0) else none

/-- The position that a text writes. -/
def readPosition (cs : List Char) : Option Nat :=
  let digits := match cs with
    | '+' :: rest => rest
    | _ => cs
  (readDigits digits).filter (· < positionBound)

end TreeEditor.Text
