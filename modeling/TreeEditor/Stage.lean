/-!
# Stages

A state is created without branches, is ready once it has all of them, and is vacant while the
optional slot it stands in has no assigned node.
-/

namespace TreeEditor

/-- The stages in the life of a state. -/
inductive Stage where
  /-- Registered, without branches yet. -/
  | created
  /-- With all its branches; only such a state can own an edit. -/
  | ready
  /-- An optional slot without an assigned node. -/
  | vacant
deriving DecidableEq, Inhabited

/-- The name of a stage. -/
def Stage.name : Stage → String
  | created => "Created"
  | ready => "Initialized"
  | vacant => "Unassigned"

end TreeEditor
