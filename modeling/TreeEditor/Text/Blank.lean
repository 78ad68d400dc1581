/-!
# Blank characters

The characters with the Unicode property White_Space, and the trimming of a text by them. The set
is wider than the ASCII blanks: it holds the no-break space, the line and paragraph separators and
the ideographic space as well.
-/

namespace TreeEditor.Text

/-- The code points of property White_Space, as ranges with both ends included. -/
def blankRanges : List (Nat × Nat) :=
  [(0x9, 0xD), (0x20, 0x20), (0x85, 0x85), (0xA0, 0xA0), (0x1680, 0x1680), (0x2000, 0x200A),
    (0x2028, 0x2029), (0x202F, 0x202F), (0x205F, 0x205F), (0x3000, 0x3000)]

/-- A character is blank when its code point lies in one of the ranges. -/
def isBlank (c : Char) : Bool :=
  blankRanges.any fun range => range.1 ≤ c.toNat && c.toNat ≤ range.2

/-- A text without the blanks at its end. -/
def trimEnd : List Char → List Char
  | [] => []
  | c :: cs =>
    match trimEnd cs with
    | [] => if isBlank c then [] else [c]
    | rest => c :: rest

/-- A text without the blanks at either end. -/
def trim (cs : List Char) : List Char :=
  trimEnd (cs.dropWhile isBlank)

/-- A text cut at every occurrence of a separator; a text without one is a single piece. -/
def cut (separator : Char) : List Char → List (List Char)
  | [] => [[]]
  | c :: cs =>
    if c = separator then
      [] :: cut separator cs
    else
      match cut separator cs with
      | [] => [[c]]
      | piece :: pieces => (c :: piece) :: pieces

/-- What stands before and after the first occurrence of a separator, if there is one. -/
def cutOnce (separator : Char) : List Char → Option (List Char × List Char)
  | [] => none
  | c :: cs =>
    if c = separator then
      some ([], cs)
    else
      (cutOnce separator cs).map fun halves => (c :: halves.1, halves.2)

/-- A text without its last character, when that character is the given one. -/
def dropEnd (last : Char) : List Char → Option (List Char)
  | [] => none
  | [c] => if c = last then some [] else none
  | c :: cs => (dropEnd last cs).map (c :: ·)

end TreeEditor.Text
