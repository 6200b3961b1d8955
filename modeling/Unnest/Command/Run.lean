import Unnest.Command.Files
import Unnest.Command.Outcome
import Unnest.Command.Step
import Unnest.Command.Subcommand
import Unnest.Profiler.Report
import Unnest.Table.Listing

namespace Unnest.Command

-- A result, or a report of what went wrong. Refused calls are explained, and a step that cannot
-- be read is an error of usage.
def conclude (c : Subcommand) (verbose : Bool) (work : Traced (Text × Option Text)) :
    Outcome :=
  let notes := journalLines verbose work.journal
  match work.result with
  | .ok (text, report) =>
      printed notes text ((report.map fun r => withoutControl r ++ [.char '\n']).getD [])
  | .error (.badStep fault) =>
      usageError c.usage (.concat [programName, " ", c.name]) (.step fault) notes
  | .error (.rejected r) =>
      let advice := r.advice
      let notes := notes ++ journalLines verbose advice.journal
      match advice.result with
      | .ok a =>
          let report := Text.concat ["❌ Error: ", r.message, "\n   ", a.action, "\n"]
          { exit := 1, stderr := escaped (notes ++ withoutControl report) }
      | .error e => { exit := 1, stderr := escaped notes, crash := some e }
  | .error e => { exit := 1, stderr := escaped notes, crash := some e }

def outputFormats : List Text :=
  ["table", "csv"]

-- The files that are named, in order. The first that is none is refused, and a path that nothing
-- could have is a failure.
def openFiles (disk : Disk) (paths : List Text) (refuse : UsageFault → Outcome) :
    Except Outcome (List ByteArray) :=
  if paths.isEmpty then .error (refuse .missingFiles)
  else
    paths.mapM fun path =>
      match Disk.fault? path, disk.find? path with
      | some fault, _ => .error { exit := 1, crash := some fault }
      | none, none => .error (refuse (.missingFile (Disk.shown path)))
      | none, some .directory => .error (refuse (.directory (Disk.shown path)))
      | none, some (.file bytes) => .ok bytes

def sourceOf (byLine : Bool) (files : List ByteArray) : Except Failure Source :=
  (readDocuments byLine files).map fun documents => .datum (.list (documents.map .text))

-- Applies the steps to the documents and prints the table.
def flatten (w : Words) (files : List ByteArray) (sensors : Sensors) (room : Headroom := none) :
    Traced (Text × Option Text) := do
  let stages ← (w.values "--step").mapM parseStep
  let source ← liftM (sourceOf (w.has "--lines") files)
  let (outcome, report) :=
    if w.has "--profile" then
      let p : Profiler := { channel := .pipeline, sensors }
      let (outcome, p) := Pipeline.runProfiled stages source .none p room
      (outcome, some p.report)
    else (Pipeline.run stages source .none room, none)
  let t ← outcome
  let text ← liftM (if (w.values "--format").getLast? = some "csv" then t.table.toCsv
    else t.table.toListing.map (· ++ [.char '\n']))
  return (text, report)

-- Prints the kind and the length of each document.
def types (w : Words) (files : List ByteArray) (room : Headroom := none) :
    Traced (Text × Option Text) := do
  let source ← liftM (sourceOf (w.has "--lines") files)
  let stages : Pipeline := [{ verb := Verb.jsonTypes.name }, { verb := Verb.jsonLengths.name }]
  let t ← Pipeline.run stages source .none room
  let text ← liftM (t.table.toListing.map (· ++ [.char '\n']))
  return (text, none)

def runCommand (c : Subcommand) (verbose : Bool) (words : List Text) (disk : Disk)
    (sensors : Sensors) (room : Headroom := none) : Outcome :=
  let refuse := usageError c.usage (.concat [programName, " ", c.name])
  match Words.read c.known true words with
  | .error fault => refuse fault
  | .ok w =>
      if w.has "--help" then printed [] c.help
      else
        match (w.values "--format").getLast?.filter fun f => !outputFormats.contains f with
        | some format => refuse (.format format outputFormats)
        | none =>
            match openFiles disk w.others refuse with
            | .error outcome => outcome
            | .ok files =>
                conclude c verbose
                  (if c.name = flattenCommand.name then flatten w files sensors room
                    else types w files room)

-- Help and version are asked for before anything else, and the first of them is given.
def answered? (w : Words) : Option Outcome :=
  w.options.findSome? fun (name, _) =>
    if name = "--help" then some (printed [] groupHelp)
    else if name = "--version" then
      some (printed [] (.concat [programName, ", version ", version, "\n"]))
    else none

def runWords (w : Words) (disk : Disk) (sensors : Sensors) (room : Headroom)
    (unknown : Text → List Text → Outcome) : Outcome :=
  match answered? w, w.others with
  | some outcome, _ => outcome
  | none, [] => usageError groupUsage programName .missingCommand
  | none, word :: rest =>
      match commands.find? (·.name = word) with
      | some c => runCommand c (w.has "--verbose") rest disk sensors room
      | none => unknown word rest

def noSuchCommand (word : Text) : Outcome :=
  usageError groupUsage programName
    (.noSuchCommand word (Text.closest word (commands.map Subcommand.name)))

-- Runs a command line, with so much room for nested calls. Without any word the help is an error; a
-- word in the place of the command that looks like an option is read as one after all.
def run (disk : Disk) (sensors : Sensors) (words : List Text) (room : Headroom := none) : Outcome :=
  if words.isEmpty then { exit := 2, stderr := escaped groupHelp }
  else
    match Words.read groupSwitches false words with
    | .error fault => usageError groupUsage programName fault
    | .ok w =>
        runWords w disk sensors room fun word rest =>
          if word.head? = some (.char '-') then
            match Words.read groupSwitches false (word :: rest) with
            | .error fault => usageError groupUsage programName fault
            | .ok w => (answered? w).getD (noSuchCommand word)
          else noSuchCommand word

end Unnest.Command
