import TreeEditor.Json.Decoder

/-!
# Settings

How many groups of edits can be undone, and whether the states are checked after every edit.
-/

namespace TreeEditor

open Json

/-- The settings of an editor. -/
structure Settings where
  /-- How many groups can be undone; zero sets no limit. -/
  maxUndoLevels : Nat := 100
  /-- Check the states after every edit and break down on a violation. -/
  verifyInvariants : Bool := true
deriving DecidableEq

namespace Settings

/-- The settings that hold where nothing is set. -/
def standard : Settings := {}

/-- The form of settings. -/
def toJson (settings : Settings) : Json :=
  .obj [("maxUndoLevels", .nat settings.maxUndoLevels),
    ("verifyInvariants", .bool settings.verifyInvariants)]

/-- Settings; what is not set is standard. -/
def decoder : Decoder Settings :=
  Decoder.record fun depth => do
    let maxUndoLevels ← .defaulted "maxUndoLevels" standard.maxUndoLevels (Decoder.position depth)
    let verifyInvariants ←
      .defaulted "verifyInvariants" standard.verifyInvariants (Decoder.bool depth)
    return { maxUndoLevels, verifyInvariants }

end Settings

end TreeEditor
