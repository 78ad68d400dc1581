import TreeEditor.Refusal

/-!
# Violations

What the check of an editor can find: a state that is not registered where it stands, a branch that
does not agree with the document, a state that nothing leads to.
-/

namespace TreeEditor

/-- A disagreement found among the states, or between them and the document. -/
inductive Violation where
  | placeOfRemoved (place : Place) (state : Handle)
  | placeOfOther (place : Place) (state : Handle) (actual : Place)
  | unregistered (state : Handle) (place : Place)
  | deadChild (state : Handle)
  | wrongStage (state : Handle) (stage : Stage) (present : Bool)
  | unshaped (error : ShapeError)
  | branchCount (state : Handle) (branches : Nat) (kind : String) (properties : Nat)
  | wrongBranch (state : Handle) (branch property : String)
  | childCount (branch : BranchRef) (states nodes : Nat)
  | outOfOrder (branch : BranchRef) (slot : Slot)
  | blockCount (branch : BranchRef) (states blocks : Nat)
  | emptyBlock (branch : BranchRef) (block : Nat)
  | wrongBlock (branch : BranchRef) (block : Nat)
  | misplaced (state : Handle) (actual expected : Place)
  | deadAt (state : Handle) (place : Place)
  | unreachable (count : Nat)
deriving DecidableEq

/-- The text of a disagreement. -/
def Violation.message : Violation → String
  | placeOfRemoved place state => s!"{place} maps to removed state {state}"
  | placeOfOther place state actual =>
    s!"{place} maps to {state} which is registered at {actual}"
  | unregistered state place => s!"state {state} at {place} is not registered"
  | deadChild state => s!"child state {state} is not live"
  | wrongStage state stage present =>
    s!"state {state} is {stage.name} but its node is " ++ (if present then "present" else "absent")
  | unshaped error => (Refusal.shape error).message
  | branchCount state branches kind properties =>
    s!"state {state} has {branches} inners, node `{kind}` has {properties} child properties"
  | wrongBranch state branch property =>
    s!"inner `{branch}` of {state} does not match property `{property}`"
  | childCount branch states nodes =>
    s!"inner `{branch.property}` of {branch.owner} holds {states} states for {nodes} nodes"
  | outOfOrder branch slot =>
    s!"inner `{branch.property}` of {branch.owner} is out of order at {slot}"
  | blockCount branch states blocks =>
    s!"`{branch.property}` of {branch.owner} mirrors {states} blocks, document has {blocks}"
  | emptyBlock branch block =>
    s!"block {block} of `{branch.property}` in {branch.owner} is empty"
  | wrongBlock branch block =>
    s!"block {block} of `{branch.property}` in {branch.owner} differs from the document"
  | misplaced state actual expected => s!"state {state} is at {actual}, expected {expected}"
  | deadAt state place => s!"state {state} at {place} is not live"
  | unreachable count => s!"{count} live states are unreachable from the root"

end TreeEditor
