import TreeEditor.Json.Basic

/-!
# Writing JSON

The compact form has no blanks; the indented form puts every item and member on a line of its own.
Both write characters as they are, except for the quote, the backslash and the controls below the
space. Every function here puts its output in front of a text that follows, so that what stands
after a value is a parameter and not an afterthought.
-/

namespace TreeEditor.Json

/-- A hexadecimal digit in lower case. -/
def hexDigit (value : Nat) : Char :=
  if value < 10 then Char.ofNat (0x30 + value) else Char.ofNat (0x57 + value)

/-- A character inside a string literal. -/
def writeChar (c : Char) (rest : List Char) : List Char :=
  if c = '"' then '\\' :: '"' :: rest
  else if c = '\\' then '\\' :: '\\' :: rest
  else if c = '\x08' then '\\' :: 'b' :: rest
  else if c = '\x0c' then '\\' :: 'f' :: rest
  else if c = '\n' then '\\' :: 'n' :: rest
  else if c = '\r' then '\\' :: 'r' :: rest
  else if c = '\t' then '\\' :: 't' :: rest
  else if c.toNat < 0x20 then
    '\\' :: 'u' :: '0' :: '0' :: hexDigit (c.toNat / 16) :: hexDigit (c.toNat % 16) :: rest
  else c :: rest

/-- A string literal with its quotes. -/
def writeString (s : String) (rest : List Char) : List Char :=
  '"' :: s.toList.foldr writeChar ('"' :: rest)

/-- An integer in decimal. -/
def writeInt (n : Int) (rest : List Char) : List Char :=
  match n with
  | .ofNat k => Nat.toDigits 10 k ++ rest
  | .negSucc k => '-' :: Nat.toDigits 10 (k + 1) ++ rest

mutual

/-- The compact form of a value; a number or part whose value is not kept is written as `null`. -/
def write : Json → List Char → List Char
  | .null, rest | .real, rest | .garbled, rest => 'n' :: 'u' :: 'l' :: 'l' :: rest
  | .bool true, rest => 't' :: 'r' :: 'u' :: 'e' :: rest
  | .bool false, rest => 'f' :: 'a' :: 'l' :: 's' :: 'e' :: rest
  | .int n, rest => writeInt n rest
  | .str s, rest => writeString s rest
  | .arr [], rest => '[' :: ']' :: rest
  | .arr (item :: items), rest => '[' :: write item (writeItems items (']' :: rest))
  | .obj [], rest => '\x7b' :: '\x7d' :: rest
  | .obj ((name, value) :: members), rest =>
    '\x7b' :: writeString name (':' :: write value (writeMembers members ('\x7d' :: rest)))

/-- Further items, each after a comma. -/
def writeItems : List Json → List Char → List Char
  | [], rest => rest
  | item :: items, rest => ',' :: write item (writeItems items rest)

/-- Further members, each after a comma. -/
def writeMembers : List (String × Json) → List Char → List Char
  | [], rest => rest
  | (name, value) :: members, rest =>
    ',' :: writeString name (':' :: write value (writeMembers members rest))

end

/-- A line break and the indentation of a nesting level, two spaces for each. -/
def newline (level : Nat) (rest : List Char) : List Char :=
  '\n' :: List.replicate (2 * level) ' ' ++ rest

mutual

/-- The indented form of a value that stands at a nesting level. -/
def writeIndented (level : Nat) : Json → List Char → List Char
  | .null, rest => write .null rest
  | .real, rest => write .real rest
  | .garbled, rest => write .garbled rest
  | .bool b, rest => write (.bool b) rest
  | .int n, rest => write (.int n) rest
  | .str s, rest => write (.str s) rest
  | .arr [], rest => '[' :: ']' :: rest
  | .arr (item :: items), rest =>
    '[' :: newline (level + 1) (writeIndented (level + 1) item
      (writeIndentedItems (level + 1) items (newline level (']' :: rest))))
  | .obj [], rest => '\x7b' :: '\x7d' :: rest
  | .obj ((name, value) :: members), rest =>
    '\x7b' :: newline (level + 1) (writeString name (':' :: ' ' :: writeIndented (level + 1) value
      (writeIndentedMembers (level + 1) members (newline level ('\x7d' :: rest)))))

/-- Further items at a nesting level. -/
def writeIndentedItems (level : Nat) : List Json → List Char → List Char
  | [], rest => rest
  | item :: items, rest =>
    ',' :: newline level (writeIndented level item (writeIndentedItems level items rest))

/-- Further members at a nesting level. -/
def writeIndentedMembers (level : Nat) : List (String × Json) → List Char → List Char
  | [], rest => rest
  | (name, value) :: members, rest =>
    ',' :: newline level (writeString name (':' :: ' ' :: writeIndented level value
      (writeIndentedMembers level members rest)))

end

/-- The compact text of a value. -/
def compact (value : Json) : String := String.ofList (write value [])

/-- The indented text of a value. -/
def indented (value : Json) : String := String.ofList (writeIndented 0 value [])

end TreeEditor.Json
