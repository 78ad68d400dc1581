import TreeEditor.Grammar.Basic
import TreeEditor.Node.Json

/-!
# Schemas as JSON

A schema is a record with a table of kinds; each kind is a list of declared properties.
-/

namespace TreeEditor

open Json

/-- The form of a declared property. -/
def Declaration.toJson (declaration : Declaration) : Json :=
  .obj [("name", .str declaration.name), ("kind", declaration.kind.toJson),
    ("accepts", .strs declaration.accepts)]

/-- A declared property. -/
def Declaration.decoder : Decoder Declaration :=
  Decoder.record fun depth => do
    let name ← .required "name" (Decoder.text depth)
    let kind ← .required "kind" (PropertyKind.decoder depth)
    let accepts ← .defaulted "accepts" [] (Decoder.list Decoder.text depth)
    return ⟨name, kind, accepts⟩

/-- A schema. -/
def Schema.decoder : Decoder Schema :=
  Decoder.record fun depth => do
    let kinds ← .defaulted "kinds" []
      (Decoder.table (Decoder.list Declaration.decoder) depth)
    return ⟨kinds⟩

end TreeEditor
