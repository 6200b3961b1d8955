import Unnest.Failure
import Unnest.Text.Quoted
import Unnest.Text.Similarity

namespace Unnest.Command

-- An option: its long name with the dashes, perhaps a letter, and whether a value follows it.
structure Switch where
  long : Text
  letter : Option CodePoint := none
  takesValue : Bool := false

-- What is wrong with a command line.
inductive UsageFault where
  | noSuchOption (name : Text) (close : List Text)
  | missingValue (option : Text)
  | strayValue (option : Text)
  | missingCommand
  | noSuchCommand (name : Text) (close : List Text)
  | missingFiles
  | missingFile (path : Text)
  | directory (path : Text)
  | format (value : Text) (known : List Text)
  | step (fault : StepFault)

namespace UsageFault

def suggestion : List Text → Text
  | [] => []
  | [name] => .concat [" Did you mean ", name.quoted, "?"]
  | names => .concat [" (Did you mean one of: ", .join ", " (names.map Text.quoted), "?)"]

def message : UsageFault → Text
  | noSuchOption name close =>
      .concat ["No such option ", name.quoted, ".", suggestion close]
  | missingValue option => .concat ["Option ", option.quoted, " requires an argument."]
  | strayValue option => .concat ["Option ", option.quoted, " does not take a value."]
  | missingCommand => "Missing command."
  | noSuchCommand name close =>
      .concat ["No such command ", name.quoted, ".", suggestion close]
  | missingFiles => "Missing argument 'FILES...'."
  | missingFile path =>
      .concat ["Invalid value for 'FILES...': File ", path.quoted, " does not exist."]
  | directory path => .concat ["Invalid value for 'FILES...': File ", path.quoted,
      " is a directory."]
  | format value known =>
      .concat ["Invalid value for '--format' / '-f': ", value.quoted, " is not one of ",
        .join ", " (known.map Text.quoted), "."]
  | step fault => .concat ["Invalid value for '--step': ", fault.message]

-- Where the words themselves cannot be taken apart, no usage is shown.
def showsUsage : UsageFault → Bool
  | missingValue _ | strayValue _ => false
  | _ => true

end UsageFault

-- A command line taken apart: options by their long names, in order, and the other words.
structure Words where
  options : List (Text × Text) := []
  others : List Text := []

namespace Words

def has (w : Words) (option : Text) : Bool :=
  w.options.any (·.1 = option)

def values (w : Words) (option : Text) : List Text :=
  w.options.filterMap fun (name, value) => if name = option then some value else none

end Words

-- What one word says: options that are complete, and perhaps one that waits for its value, which
-- is kept with its name as it was written.
structure WordReading where
  options : List (Text × Text) := []
  waiting : Option (Text × Text) := none

-- Letters after one dash: each is an option, and the first that takes a value takes all that
-- follows it.
def readLetters (known : List Switch) : Text → Except UsageFault WordReading
  | [] => .ok {}
  | c :: rest =>
      match known.find? (·.letter = some c) with
      | none => .error (.noSuchOption [.char '-', c] [])
      | some s =>
          if s.takesValue then
            if rest.isEmpty then .ok { waiting := some (s.long, [.char '-', c]) }
            else .ok { options := [(s.long, rest)] }
          else (readLetters known rest).map fun r => { r with options := (s.long, []) :: r.options }

-- A word that starts with a dash is a long name, perhaps with a value after an equals sign, or
-- else letters.
def readOption (known : List Switch) (word : Text) : Except UsageFault WordReading :=
  let (name, value) := word.cut (.char '=')
  match known.find? (·.long = name) with
  | some s =>
      match s.takesValue, value with
      | true, some value => .ok { options := [(s.long, value)] }
      | true, none => .ok { waiting := some (s.long, name) }
      | false, none => .ok { options := [(s.long, [])] }
      | false, some _ => .error (.strayValue name)
  | none =>
      if (Text.ofString "--").isPrefixOf word then
        .error (.noSuchOption name (Text.closest name (known.map Switch.long)))
      else readLetters known (word.drop 1)

-- Takes words apart from left to right. After two dashes no word is an option any more, and if
-- options and other words do not mix, neither after the first other word.
def readWords (known : List Switch) (mixed : Bool) :
    Option (Text × Text) → List Text → Except UsageFault Words
  | none, [] => .ok {}
  | some (_, written), [] => .error (.missingValue written)
  | some (name, _), word :: rest =>
      (readWords known mixed none rest).map fun w =>
        { w with options := (name, word) :: w.options }
  | none, word :: rest =>
      if word = "--" then .ok { others := rest }
      else if word.head? = some (.char '-') ∧ word.length ≠ 1 then
        match readOption known word with
        | .error fault => .error fault
        | .ok r =>
            (readWords known mixed r.waiting rest).map fun w =>
              { w with options := r.options ++ w.options }
      else if mixed then
        (readWords known mixed none rest).map fun w => { w with others := word :: w.others }
      else .ok { others := word :: rest }

def Words.read (known : List Switch) (mixed : Bool) (words : List Text) :
    Except UsageFault Words :=
  readWords known mixed none words

end Unnest.Command
