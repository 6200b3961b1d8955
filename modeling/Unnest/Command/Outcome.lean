import Unnest.Command.Options
import Unnest.Journal

namespace Unnest.Command

-- How a run ends. A failure that no one reports is kept apart from the text.
structure Outcome where
  exit : Nat := 0
  stdout : String := ""
  stderr : String := ""
  crash : Option Failure := none

-- Half of a surrogate pair is no character; where it has to be shown, its code is.
def escapedCharacter : CodePoint → List Char
  | .char c => [c]
  | .surrogate s => ("\\u".toList ++ Nat.toDigits 16 (0xD800 + s.val))

def escaped (t : Text) : String :=
  String.ofList (t.flatMap escapedCharacter)

-- A sequence that controls a terminal: escape, bracket, parameters, intermediate characters and a
-- final one.
def isControlParameter (c : CodePoint) : Bool :=
  0x30 ≤ c.code && c.code ≤ 0x3F

def isControlIntermediate (c : CodePoint) : Bool :=
  0x20 ≤ c.code && c.code ≤ 0x2F

def isControlFinal (c : CodePoint) : Bool :=
  0x40 ≤ c.code && c.code ≤ 0x7E

def afterControl? : Text → Option Text
  | .char '\x1b' :: .char '[' :: rest =>
      match (rest.dropWhile isControlParameter).dropWhile isControlIntermediate with
      | c :: rest => if isControlFinal c then some rest else none
      | [] => none
  | _ => none

-- Terminal control is not written to a stream.
def withoutControl (t : Text) : Text :=
  go t.length t
where
  go : Nat → Text → Text
    | 0, t => t
    | _, [] => []
    | fuel + 1, c :: rest =>
        match afterControl? (c :: rest) with
        | some rest => go fuel rest
        | none => c :: go fuel rest

-- The lines for the records of a journal, from warnings on or all of them.
def journalLines (verbose : Bool) (journal : Journal) : Text :=
  let lowest := if verbose then Level.debug else Level.warning
  let lines := journal.filterMap fun r =>
    if lowest.rank ≤ r.level.rank then
      some (Text.concat [r.level.name, " ", r.channel.name, ": ", r.message, "\n"])
    else none
  .concat lines

-- A text on the standard output, unless it cannot be encoded.
def printed (stderr text : Text) (after : Text := []) : Outcome :=
  match (withoutControl text).toString? with
  | some stdout => { stdout, stderr := escaped (.concat [stderr, after]) }
  | none => { exit := 1, stderr := escaped stderr, crash := some .unencodable }

-- A message about the usage, on the stream for errors.
def usageError (usage command : Text) (fault : UsageFault) (journal : Text := []) :
    Outcome :=
  let header :=
    if fault.showsUsage then Text.concat [usage, "Try '", command, " --help' for help.\n\n"] else []
  let text := Text.concat [header, "Error: ", fault.message, "\n"]
  { exit := 2, stderr := escaped (journal ++ withoutControl text) }

end Unnest.Command
