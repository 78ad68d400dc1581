import TreeEditor.Text.Graphic

/-!
# Quoted texts

A text as it is quoted in a message: between quotes, with a backslash before a quote or a backslash,
short escapes for the line feed, the carriage return, the tab and the zero character, and the code
point in braces for every other character that is not graphic.
-/

namespace TreeEditor.Text

/-- A character of a quoted text. -/
def quoteChar (c : Char) : List Char :=
  if c = '"' then ['\\', '"']
  else if c = '\\' then ['\\', '\\']
  else if c = '\n' then ['\\', 'n']
  else if c = '\r' then ['\\', 'r']
  else if c = '\t' then ['\\', 't']
  else if c.toNat = 0 then ['\\', '0']
  else if isGraphic c then [c]
  else ['\\', 'u', '\x7b'] ++ Nat.toDigits 16 c.toNat ++ ['\x7d']

/-- A text between quotes. -/
def quote (text : String) : String :=
  String.ofList ('"' :: text.toList.flatMap quoteChar ++ ['"'])

end TreeEditor.Text
