import TreeEditor.CommandLine

/-!
# The program

Reads the arguments and the files that they name, carries the command out and prints its report.
-/

namespace TreeEditor

open CommandLine

/-- What the arguments ask for. -/
structure Arguments where
  /-- The command and the files it works on. -/
  words : List String := []
  config : Option String := none
  schema : Option String := none
  options : ReplayOptions := ⟨false, false⟩

/-- Reads arguments: options may stand before, between and after the words. -/
def Arguments.read : List String → Arguments → Option Arguments
  | [], arguments => some { arguments with words := arguments.words.reverse }
  | "--config" :: name :: rest, arguments =>
    Arguments.read rest { arguments with config := some name }
  | "--schema" :: name :: rest, arguments | "-s" :: name :: rest, arguments =>
    Arguments.read rest { arguments with schema := some name }
  | "--undo-all" :: rest, arguments =>
    Arguments.read rest { arguments with options := { arguments.options with undoAll := true } }
  | "--print-tree" :: rest, arguments =>
    Arguments.read rest { arguments with options := { arguments.options with printTree := true } }
  | word :: rest, arguments =>
    if word.startsWith "-" then none
    else Arguments.read rest { arguments with words := word :: arguments.words }

/-- The report of what the arguments ask for, unless they ask for nothing known. -/
def Arguments.report (files : Files) (arguments : Arguments) : Option Report :=
  let settings := loadSettings files arguments.config
  match arguments.words with
  | ["check", tree] => some <| .of settings (check files tree arguments.schema)
  | ["replay", tree, script] =>
    some <| .of settings (replay files tree script arguments.schema arguments.options)
  | _ => none

/-- How to call the program. -/
def usage : String :=
  "usage: (check TREE | replay TREE SCRIPT [--undo-all] [--print-tree]) [--schema FILE] " ++
    "[--config FILE]"

/-- The contents of those of some files that can be read. -/
def readFiles (names : List String) : IO Files := do
  let found ← names.mapM fun (name : String) => do
    try
      return some (name, ← IO.FS.readFile ⟨name⟩)
    catch _ =>
      return none
  return found.filterMap id

end TreeEditor

open TreeEditor TreeEditor.CommandLine in
/-- Prints the report; a command that does not end well is reported as an error. -/
def main (args : List String) : IO UInt32 := do
  let some arguments := Arguments.read args {} | IO.eprintln usage; return 2
  let names := settingsFile :: arguments.words.drop 1 ++ arguments.config.toList ++
    arguments.schema.toList
  let files ← readFiles names
  let some report := arguments.report files | IO.eprintln usage; return 2
  report.lines.forM IO.println
  match report.result with
  | .ok () => return 0
  | .error trouble =>
    IO.eprintln ("Error: " ++ (trouble.message?.getD ""))
    return 1
