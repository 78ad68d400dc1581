import TreeEditor.Text.Blank

/-!
# Lines

A printed text as the lines that a reader of the output sees. Every line ends with a line feed. One
carriage return right before the line feed belongs to the end of the line; any other is part of the
line.
-/

namespace TreeEditor.Text

/-- The lines of a text that is printed with a line feed after it. -/
def lines (text : String) : List String :=
  (cut '\n' text.toList).map fun line => String.ofList ((dropEnd '\r' line).getD line)

end TreeEditor.Text
