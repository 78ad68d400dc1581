import TreeEditor.Editor.Observation
import TreeEditor.Grammar.Json
import TreeEditor.Json.Printer
import TreeEditor.Script.Json
import TreeEditor.Text.Line

/-!
# The command line

Two commands work on files that hold JSON: `check` builds the states of a document and lists them,
`replay` carries out a script on a document. Here the files are a table of names and contents, and
what a command does is a report: the lines that it prints, and whether it ended well.
-/

namespace TreeEditor.CommandLine

/-- The files that can be read, by name. -/
abbrev Files := Table String String

/-- Why a command ends before its time. -/
inductive Cause where
  | unreadable
  | malformed
  | faulty (fault : Fault)
  | violated (violation : Violation)

/-- A cause, and what was being done. -/
structure Trouble where
  context : Option String
  cause : Cause

/-- The text of a cause, where it has one of its own. -/
def Cause.message? : Cause → Option String
  | unreadable | malformed => none
  | faulty fault => some fault.message
  | violated violation => some ("Invariant violated: " ++ violation.message)

/-- The text of a trouble: what was being done and then the cause. A breakdown is not put into any
context. -/
def Trouble.message? (trouble : Trouble) : Option String :=
  match trouble.cause with
  | .faulty (.failed (.broken breach)) => some breach.message
  | cause =>
    match trouble.context.toList ++ cause.message?.toList with
    | [] => none
    | texts => some (": ".intercalate texts)

/-- What a command printed, and how it ended. -/
structure Report where
  /-- The texts printed, each with a line feed after it; names in them may hold line feeds too. -/
  lines : List String
  result : Except Trouble Unit

/-- What was printed, line by line. -/
def Report.output (report : Report) : List String := report.lines.flatMap Text.lines

/-- A report that starts with further lines. -/
def Report.after (lines : List String) (report : Report) : Report :=
  { report with lines := lines ++ report.lines }

/-- A report that ends with a trouble. -/
def Report.failed (trouble : Trouble) : Report := ⟨[], .error trouble⟩

/-- The report of what is done with a result. -/
def Report.of {α : Type} (result : Except Trouble α) (next : α → Report) : Report :=
  match result with
  | .ok value => next value
  | .error trouble => .failed trouble

/-! ## Loading -/

/-- The value that a file holds, with what to say when it cannot be read or holds none. -/
def load {α : Type} (files : Files) (decode : Json.Decoder α) (name unreadable malformed : String) :
    Except Trouble α :=
  match Table.get? name files with
  | none => .error ⟨some unreadable, .unreadable⟩
  | some text =>
    match Json.decodeText decode text with
    | none => .error ⟨some malformed, .malformed⟩
    | some value => .ok value

/-- The file that holds the settings when no other one is named. -/
def settingsFile : String := "frond.config.json"

/-- The settings in a file; whether it cannot be read or holds none, the same is said. -/
def loadSettingsFrom (files : Files) (name failed : String) : Except Trouble Settings :=
  load files Settings.decoder name failed failed

/-- The settings: from a named file, or from the usual one if there is one. -/
def loadSettings (files : Files) (explicit : Option String) : Except Trouble Settings :=
  match explicit with
  | some name => loadSettingsFrom files name s!"Failed to load config {name}"
  | none =>
    if (Table.get? settingsFile files).isNone then .ok .standard
    else loadSettingsFrom files settingsFile s!"Failed to load {settingsFile}"

/-- The document in a file. -/
def loadDocument (files : Files) (name : String) : Except Trouble Node :=
  load files (Node.decoder false) name s!"Failed to read {name}" s!"Invalid document {name}"

/-- The grammar: that of a schema in a file, or the free one. -/
def loadGrammar (files : Files) : Option String → Except Trouble Grammar
  | none => .ok .free
  | some name => do
    let schema ← load files Schema.decoder name s!"Failed to read {name}" s!"Invalid schema {name}"
    return .declared schema

/-- The script in a file. -/
def loadScript (files : Files) (name : String) : Except Trouble (List Instruction) :=
  load files Script.decoder name s!"Failed to read {name}" s!"Invalid script {name}"

/-- The editor of a document in a file. -/
def loadEditor (files : Files) (tree : String) (schema : Option String) (settings : Settings) :
    Except Trouble Editor := do
  let document ← loadDocument files tree
  let grammar ← loadGrammar files schema
  (Editor.ofDocument document grammar settings).mapError fun failure =>
    ⟨some s!"Cannot mirror {tree}", .faulty (.failed failure)⟩

/-- The check of an editor at the end of a command. -/
def verified (editor : Editor) : Except Trouble Unit :=
  editor.verify.mapError fun violation => ⟨none, .violated violation⟩

/-! ## Listing states -/

/-- A text with blanks put in front to make it six characters wide. -/
def column (text : String) : String :=
  String.ofList (List.replicate (6 - text.length) ' ') ++ text

/-- The indentation of a depth. -/
def indentation (depth : Nat) : String := String.ofList (List.replicate (2 * depth) ' ')

/-- The line for a state. -/
def stateLine (editor : Editor) (handle : Handle) : List String :=
  match editor.pathOf handle with
  | .error _ => []
  | .ok path =>
    let label := match path.getLast? with
      | some step => step.text
      | none => "/"
    let vacant := (editor.store.get? handle).any (·.stage = .vacant)
    let kind := if vacant then "unassigned" else ((editor.node? handle).map Node.kind).getD "?"
    [column handle.text ++ " " ++ indentation path.length ++ label ++ " " ++ kind]

/-- The line for a block. -/
def blockLine (editor : Editor) (branch : BranchRef) (block : Nat) : String :=
  let depth := ((editor.pathOf branch.owner).toOption.map List.length).getD 0
  column "" ++ " " ++ indentation (depth + 1) ++ s!"{branch.property}[{block}] block"

/-- The lines for an event of the creation of the states. -/
def eventLines (editor : Editor) : Event → List String
  | .stateCreated _ handle => stateLine editor handle
  | .blockCreated branch block => [blockLine editor branch block]
  | _ => []

/-- Lists the states of a document and checks them. -/
def check (files : Files) (tree : String) (schema : Option String) (settings : Settings) :
    Report :=
  Report.after [s!"🔍 Checking {tree}"] <|
    .of (loadEditor files tree schema settings) fun editor =>
      let events := editor.attachEvents.mapError fun failure => ⟨none, .faulty (.failed failure)⟩
      .of events fun events =>
        Report.after (events.flatMap (eventLines editor)) <|
          .of (verified editor) fun _ =>
            ⟨["", s!"✨ Done {editor.stateCount} states"], .ok ()⟩

/-! ## Replaying scripts -/

/-- The lines for the events that were announced since an earlier state of the editor. -/
def announcedLines (before after : Editor) : List String :=
  (after.store.journal.toList.drop before.store.journal.size).map fun event =>
    s!"     · {event.text}"

/-- Carries out the instructions of a script from a number on, and goes on with the editor. -/
def followAll (next : Editor → Report) : (number : Nat) → List Instruction → Editor → Report
  | _, [], editor => next editor
  | number, instruction :: rest, editor =>
    match instruction.follow editor with
    | (result, after) =>
      Report.after (s!"   → {instruction.text}" :: announcedLines editor after) <|
        match result with
        | .ok () => followAll next (number + 1) rest after
        | .error fault =>
          .failed ⟨some s!"Command {number} ({instruction.name}) failed", .faulty fault⟩

/-- Undoes groups until there are none, at most so many, and goes on with their number and the
editor. -/
def undoAll (next : Nat → Editor → Report) : (limit undone : Nat) → Editor → Report
  | 0, undone, editor => next undone editor
  | limit + 1, undone, editor =>
    match editor.undo with
    | (result, after) =>
      Report.after (announcedLines editor after) <|
        match result with
        | .ok true => undoAll next limit (undone + 1) after
        | .ok false => next undone after
        | .error failure => .failed ⟨none, .faulty (.failed failure)⟩

/-- What a replay is asked for beside the script. -/
structure ReplayOptions where
  undoAll : Bool
  printTree : Bool

/-- The end of a replay: the check, the counts, and the document where it is asked for. -/
def finish (options : ReplayOptions) (instructions events : Nat) (editor : Editor) : Report :=
  .of (verified editor) fun _ =>
    ⟨["", "✨ Done Replay complete",
      s!"   Commands:    {instructions}",
      s!"   Events:      {events}",
      s!"   Undo levels: {editor.history.done.length}",
      s!"   States:      {editor.stateCount}"] ++
      (if options.printTree then ["", editor.document.toJson.indented] else []), .ok ()⟩

/-- Carries out a script on a document. -/
def replay (files : Files) (tree script : String) (schema : Option String)
    (options : ReplayOptions) (settings : Settings) : Report :=
  Report.after [s!"▶️  Replaying {script} on {tree}"] <|
    .of (loadScript files script) fun instructions =>
      .of (loadEditor files tree schema settings) fun start =>
        let complete (editor : Editor) : Report :=
          finish options instructions.length
            (editor.store.journal.size - start.store.journal.size) editor
        let undoing (undone : Nat) (editor : Editor) : Report :=
          Report.after [s!"   ↩ undid {undone} levels"] (complete editor)
        followAll (fun editor =>
          -- Every step takes one group off, so one step more than groups reaches the end.
          if options.undoAll then undoAll undoing (editor.history.done.length + 1) 0 editor
          else complete editor) 0 instructions start

end TreeEditor.CommandLine
