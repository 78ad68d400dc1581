import TreeEditor.Place

/-!
# Events

What an editor announces of its states: that a state or a block of states came to be or went away,
and what each edit did. Events are announced in the order in which the changes happen.
-/

namespace TreeEditor

/-- An announcement. -/
inductive Event where
  | stateCreated (place : Place) (state : Handle)
  /-- A created state has all its branches, or is vacant. -/
  | stateSettled (place : Place) (state : Handle)
  | stateDestroyed (place : Place) (state : Handle)
  | blockListCreated (branch : BranchRef)
  | blockCreated (branch : BranchRef) (block : Nat)
  | blockDestroyed (branch : BranchRef) (block : Nat)
  | inserted (place : Place) (state : Handle)
  | removed (place : Place) (state : Handle)
  | replaced (place : Place) (old new : Handle)
  | assigned (place : Place) (state : Handle)
  | unassigned (place : Place) (state : Handle)
  | moved (before after : Place) (state : Handle)
  | blockInserted (branch : BranchRef) (block : Nat)
  | blockMoved (branch : BranchRef) (before after : Nat)
  | blockSplit (branch : BranchRef) (block position : Nat)
  | blocksMerged (branch : BranchRef) (block position : Nat)
  | replicationChanged (branch : BranchRef) (block : Nat) (replication : Replication)
  | valueChanged (state : Handle) (property : String)
  | refreshed (state : Handle)
deriving DecidableEq

/-- What an announcement is of. -/
inductive EventKind where
  | stateCreated
  | stateSettled
  | stateDestroyed
  | blockListCreated
  | blockCreated
  | blockDestroyed
  | inserted
  | removed
  | replaced
  | assigned
  | unassigned
  | moved
  | blockInserted
  | blockMoved
  | blockSplit
  | blocksMerged
  | replicationChanged
  | valueChanged
  | refreshed
deriving DecidableEq

namespace EventKind

/-- The name of a kind of event. -/
def name : EventKind → String
  | stateCreated => "NodeStateCreated"
  | stateSettled => "NodeStateInitialized"
  | stateDestroyed => "NodeStateRemoved"
  | blockListCreated => "BlockListInnerCreated"
  | blockCreated => "BlockStateCreated"
  | blockDestroyed => "BlockStateRemoved"
  | inserted => "StateInserted"
  | removed => "StateRemoved"
  | replaced => "StateReplaced"
  | assigned => "StateAssigned"
  | unassigned => "StateUnassigned"
  | moved => "StateMoved"
  | blockInserted => "BlockStateInserted"
  | blockMoved => "BlockStateMoved"
  | blockSplit => "BlockSplit"
  | blocksMerged => "BlocksMerged"
  | replicationChanged => "BlockReplicationChanged"
  | valueChanged => "ValueChanged"
  | refreshed => "StateRefreshed"

/-- All kinds of event. -/
def all : List EventKind :=
  [stateCreated, stateSettled, stateDestroyed, blockListCreated, blockCreated, blockDestroyed,
    inserted, removed, replaced, assigned, unassigned, moved, blockInserted, blockMoved,
    blockSplit, blocksMerged, replicationChanged, valueChanged, refreshed]

/-- The kind of event of a name. -/
def ofName? (name : String) : Option EventKind := all.find? (·.name = name)

/-- The events of a kind tell how a state came to be or went away, and not what an edit did. A block
that goes away does so by an edit. -/
def isLifecycle (kind : EventKind) : Bool :=
  kind ∈ [stateCreated, stateSettled, stateDestroyed, blockListCreated, blockCreated]

end EventKind

namespace Event

/-- What an event is of. -/
def kind : Event → EventKind
  | stateCreated .. => .stateCreated
  | stateSettled .. => .stateSettled
  | stateDestroyed .. => .stateDestroyed
  | blockListCreated .. => .blockListCreated
  | blockCreated .. => .blockCreated
  | blockDestroyed .. => .blockDestroyed
  | inserted .. => .inserted
  | removed .. => .removed
  | replaced .. => .replaced
  | assigned .. => .assigned
  | unassigned .. => .unassigned
  | moved .. => .moved
  | blockInserted .. => .blockInserted
  | blockMoved .. => .blockMoved
  | blockSplit .. => .blockSplit
  | blocksMerged .. => .blocksMerged
  | replicationChanged .. => .replicationChanged
  | valueChanged .. => .valueChanged
  | refreshed .. => .refreshed

/-- What the text of an event says after the name of its kind. -/
def details : Event → String
  | stateCreated place state | stateSettled place state | stateDestroyed place state
  | inserted place state | removed place state | assigned place state
  | unassigned place state => s!"{state} at {place}"
  | replaced place old new => s!"{old} -> {new} at {place}"
  | moved before after state => s!"{state} {before} -> {after}"
  | blockListCreated branch => branch.text
  | blockCreated branch block | blockDestroyed branch block | blockInserted branch block =>
    s!"{branch}[{block}]"
  | blockMoved branch before after => s!"{branch}[{before}] -> [{after}]"
  | blockSplit branch block position | blocksMerged branch block position =>
    s!"{branch}[{block}] at {position}"
  | replicationChanged branch block replication => s!"{branch}[{block}] to {replication.name}"
  | valueChanged state property => s!"{state}.{property}"
  | refreshed state => state.text

/-- An event as text. -/
def text (event : Event) : String := event.kind.name ++ " " ++ event.details

end Event

/-! ## Callbacks -/

/-- The callbacks that were registered, by number, in the order of their registration: each for one
kind of event, or for every event. -/
structure Callbacks where
  registered : List (Option EventKind)

/-- The numbers of the callbacks that an event calls, in the order of the calls: first those for its
kind, then those for every event. -/
def Callbacks.called (callbacks : Callbacks) (event : Event) : List Nat :=
  let numbered := callbacks.registered.zipIdx
  (numbered.filter (·.1 = some event.kind) ++ numbered.filter (·.1 = none)).map Prod.snd

end TreeEditor
