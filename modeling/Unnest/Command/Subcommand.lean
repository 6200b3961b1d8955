import Unnest.Command.Options

namespace Unnest.Command

-- A command with its options, and the words that describe it.
structure Subcommand where
  name : Text
  purpose : Text
  known : List Switch
  optionHelp : Text

def linesSwitch : Switch := { long := "--lines", letter := some (.char 'l') }

def helpSwitch : Switch := { long := "--help" }

def flattenCommand : Subcommand where
  name := "flatten"
  purpose := "Apply verbs to JSON documents and print the resulting table."
  known := [{ long := "--format", letter := some (.char 'f'), takesValue := true }, helpSwitch,
    linesSwitch, { long := "--profile" },
    { long := "--step", letter := some (.char 's'), takesValue := true }]
  optionHelp := .join "\n" [
    "  -l, --lines               Treat each line as a separate JSON document",
    "  -s, --step TEXT           Verb to apply, in order (repeatable)",
    "  -f, --format [table|csv]  Output format (default: table)",
    "  --profile                 Print timing and memory per step",
    "  --help                    Show this message and exit."]

def typesCommand : Subcommand where
  name := "types"
  purpose := "Print the JSON type and length of each document."
  known := [helpSwitch, linesSwitch]
  optionHelp := .join "\n" [
    "  -l, --lines  Treat each line as a separate JSON document",
    "  --help       Show this message and exit."]

def commands : List Subcommand :=
  [flattenCommand, typesCommand]

def programName : Text := "json-tidy"

def version : Text := "1.0.0"

def groupSwitches : List Switch :=
  [helpSwitch, { long := "--verbose", letter := some (.char 'v') }, { long := "--version" }]

def groupUsage : Text :=
  .concat ["Usage: ", programName, " [OPTIONS] COMMAND [ARGS]...\n"]

def groupHelp : Text :=
  .concat [groupUsage, "\n  json-tidy - Turn nested JSON documents into tidy tables.\n\n",
    "Options:\n",
    "  --version      Show the version and exit.\n",
    "  -v, --verbose  Enable debug logging\n",
    "  --help         Show this message and exit.\n\n",
    "Commands:\n",
    .concat (commands.map fun c =>
      .concat ["  ", c.name, List.replicate (9 - c.name.length) (.char ' '), c.purpose, "\n"])]

namespace Subcommand

def usage (c : Subcommand) : Text :=
  .concat ["Usage: ", programName, " ", c.name, " [OPTIONS] FILES...\n"]

def help (c : Subcommand) : Text :=
  .concat [c.usage, "\n  ", c.purpose, "\n\nOptions:\n", c.optionHelp, "\n"]

end Subcommand

end Unnest.Command
