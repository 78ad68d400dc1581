import TreeEditor.Arena
import TreeEditor.Json.Decoder

/-!
# Handles as JSON

A handle is a record of its cell and its generation, each a number of 32 bits.
-/

namespace TreeEditor

open Json

/-- The form of a handle. -/
def Handle.toJson (handle : Handle) : Json :=
  .obj [("index", .nat handle.index), ("generation", .nat handle.generation.toNat)]

/-- A handle. -/
def Handle.decoder : Decoder Handle :=
  Decoder.record fun depth => do
    let index ← .required "index" (Decoder.word depth)
    let generation ← .required "generation" (Decoder.word depth)
    return ⟨index, .ofNat generation⟩

end TreeEditor
