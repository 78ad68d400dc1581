import TreeEditor.Path.Basic
import TreeEditor.Text.Blank
import TreeEditor.Text.Numeral

/-!
# Reading paths

Blanks at either end and slashes at the front are dropped; what is left, unless nothing is, is cut
at the slashes into segments, each of which is one step. A segment that ends in a question mark
names an optional slot, one with a bracket a position or a block and a position, any other a
placeholder; the name of the property may not be empty.
-/

namespace TreeEditor.Path

/-- The slot that the inside of a pair of brackets writes. -/
def readInside (inside : List Char) : Option Slot :=
  match Text.cutOnce ':' inside with
  | some (block, position) => do
    let block ← Text.readPosition block
    let position ← Text.readPosition position
    return .member block position
  | none => (Text.readPosition inside).map .list

/-- The property and the slot that a segment names. -/
def readSegment (segment : List Char) : Option (List Char × Slot) :=
  -- The question mark decides first: a bracket in front of it belongs to the name.
  match Text.dropEnd '?' segment with
  | some property => some (property, .optional)
  | none =>
    match Text.cutOnce '[' segment with
    | none => some (segment, .placeholder)
    | some (property, rest) => do
      let inside ← Text.dropEnd ']' rest
      return (property, ← readInside inside)

/-- The step that a segment writes. -/
def readStep (segment : List Char) : Option Step := do
  let (property, slot) ← readSegment segment
  if property = [] then none else return ⟨String.ofList property, slot⟩

/-- The steps that segments write, or the first segment that writes none. -/
def readSteps : List (List Char) → Except String Path
  | [] => .ok []
  | segment :: rest =>
    match readStep segment with
    | none => .error (String.ofList segment)
    | some step => (readSteps rest).map (step :: ·)

/-- The path that a text writes, or the first segment that is not a step. -/
def read (text : String) : Except String Path :=
  let body := (Text.trim text.toList).dropWhile (· = '/')
  if body = [] then .ok [] else readSteps (Text.cut '/' body)

end TreeEditor.Path
