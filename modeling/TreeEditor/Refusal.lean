import TreeEditor.Grammar.Basic
import TreeEditor.Node.Json
import TreeEditor.Path.Reader
import TreeEditor.Place
import TreeEditor.Stage
import TreeEditor.Text.Quoted

/-!
# Refusals

Every request can be refused, and a refusal names its cause. The wording of each cause is in
`Refusal.message`; `Refusal.category` sorts the causes into the classes that callers tell apart.
-/

namespace TreeEditor

/-- What a refusal is about: a place among the states, or a property in the document. -/
inductive Site where
  | place (place : Place)
  | branch (branch : BranchPath)
deriving DecidableEq, Inhabited

instance : ToString Site where
  toString
    | .place place => toString place
    | .branch branch => toString branch

/-- A leaf as it stands in a message about it. -/
def Leaf.description : Leaf → String
  | boolean true => "Boolean(true)"
  | boolean false => "Boolean(false)"
  | integer value => s!"Integer({value.toInt})"
  | text value => "Text(" ++ Text.quote value ++ ")"

/-- The classes of refusals. -/
inductive Category where
  | invalidIndex
  | indexOutOfRange
  | invalidMove
  | invalidSplit
  | invalidMerge
  | structuralMismatch
  | invalidState
  | reentrantMutation
  | emptyOperationGroup
  | batchInProgress
  | noBatch
deriving DecidableEq

/-- Why a request is refused. -/
inductive Refusal where
  /-- The root stands in no slot. -/
  | rootHasNoSlot
  | unfitSlot (slot : Slot) (kind : PropertyKind) (property : String)
  | unknownState (state : Handle)
  | noBranch (branch : BranchRef)
  | notBlockList (property : String)
  /-- A slot named with its parent was refused for a reason of its own. -/
  | badPlace (place : Place) (reason : Refusal)
  | noStateAt (path : Path)
  | noNodeAt (step : Step)
  | badSegment (segment path : String)
  | notOptional (place : Place)
  | outOfRange (position count : Nat)
  | badMove (position : Nat) (delta : Int) (count : Nat)
  | badSplit (block position count : Nat)
  | badMerge (block : Nat)
  | shape (error : ShapeError)
  | removedState (state : Handle)
  | notReady (state : Handle) (path : Path) (stage : Stage)
  | replaceVacant (site : Site)
  | alreadyAssigned (site : Site)
  | notAssigned (site : Site)
  | nothingRetained (place : Place)
  | retainedDiffers (branch : BranchPath)
  | nodeDiffers (path : Path)
  | lastMember (block position : Nat)
  | blockDiffers (block : Nat) (branch : BranchPath)
  | lengthDiffers (block : Nat) (branch : BranchPath) (length expected : Nat)
  | replicationDiffers (block : Nat) (branch : BranchPath) (expected : Replication)
  | valueDiffers (property : String) (owner : Path) (expected : Leaf)
  /-- Another access is under way. -/
  | reentrant
  | emptyGroup
  | batchOpen
  | noBatch
deriving DecidableEq

namespace Refusal

/-- The class of a refusal. -/
def category : Refusal → Category
  | rootHasNoSlot | unfitSlot .. | unknownState _ | noBranch _ | notBlockList _ | badPlace ..
  | noStateAt _ | noNodeAt _ | badSegment .. | notOptional _ => .invalidIndex
  | outOfRange .. => .indexOutOfRange
  | badMove .. => .invalidMove
  | badSplit .. => .invalidSplit
  | badMerge _ => .invalidMerge
  | shape _ => .structuralMismatch
  | removedState _ | notReady .. | replaceVacant _ | alreadyAssigned _ | notAssigned _
  | nothingRetained _ | retainedDiffers _ | nodeDiffers _ | lastMember .. | blockDiffers ..
  | lengthDiffers .. | replicationDiffers .. | valueDiffers .. => .invalidState
  | reentrant => .reentrantMutation
  | emptyGroup => .emptyOperationGroup
  | batchOpen => .batchInProgress
  | noBatch => .noBatch

/-- The words that the text of a refusal of some classes starts with. -/
def heading : Category → String
  | .invalidIndex => "Invalid index: "
  | .structuralMismatch => "Structural mismatch: "
  | .invalidState => "Invalid state: "
  | _ => ""

/-- The text of a refusal. -/
def message (refusal : Refusal) : String :=
  heading refusal.category ++
    match refusal with
    | rootHasNoSlot => "the root has no parent slot"
    | unfitSlot slot kind property =>
      s!"slot {slot.description} does not fit {kind.name} property `{property}`"
    | unknownState state => s!"state {state} does not exist"
    | noBranch branch => s!"state {branch.owner} has no child property `{branch.property}`"
    | notBlockList property => s!"`{property}` is not a block list"
    | badPlace place reason => s!"{place}: " ++ reason.message
    | noStateAt path => s!"no state at {path.text}"
    | noNodeAt step => s!"no node at {step.text}"
    | badSegment segment path => s!"bad path segment `{segment}` in `{path}`"
    | notOptional place => s!"{place} is not an optional slot"
    | outOfRange position count => s!"Position {position} is out of range (count {count})"
    | badMove position delta count =>
      s!"Cannot move item at {position} by {delta} (count {count})"
    | badSplit block position count =>
      s!"Cannot split block {block} at {position} ({count} members)"
    | badMerge block => s!"Block {block} has no following block to merge with"
    | shape error => error.message
    | removedState state => s!"state {state} was removed"
    | notReady state path stage => s!"state {state} at {path.text} is {stage.name}"
    | replaceVacant site => s!"cannot replace unassigned optional {site}"
    | alreadyAssigned site => s!"optional {site} is already assigned"
    | notAssigned site => s!"optional {site} is not assigned"
    | nothingRetained place => s!"optional {place} has no retained item to assign"
    | retainedDiffers branch => s!"retained item of {branch} differs from the recorded one"
    | nodeDiffers path => s!"node at {path.text} differs from the recorded one"
    | lastMember block position =>
      s!"member {position} is the last one of block {block}; remove the block instead"
    | blockDiffers block branch => s!"block {block} of {branch} differs from the recorded one"
    | lengthDiffers block branch length expected =>
      s!"block {block} of {branch} has {length} members, the merge expects {expected}"
    | replicationDiffers block branch expected =>
      s!"block {block} of {branch} is not {expected.name}"
    | valueDiffers property owner expected =>
      s!"`{property}` of {owner.text} is not {expected.description}"
    | reentrant => "Mutation attempted while another one is in flight"
    | emptyGroup => "Operation group has no operations"
    | batchOpen => "An operation batch is in progress"
    | noBatch => "No operation batch is in progress"

end Refusal

/-- A shape that is not the expected one refuses the request that meets it. -/
def refuseShape {α : Type} (result : Except ShapeError α) : Except Refusal α :=
  result.mapError .shape

/-- The path that a text writes. -/
def Path.parse (text : String) : Except Refusal Path :=
  (Path.read text).mapError fun segment => .badSegment segment text

end TreeEditor
