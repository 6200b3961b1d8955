import Unnest.Pipeline

namespace Unnest.Command

-- A segment of decimal digits is an index, any other a key.
def parseSegment (t : Text) : Except Failure Datum :=
  match t.mapM CodePoint.digit? with
  | none | some [] => .ok (.text t)
  | some digits =>
      if digits.length ≤ maxNumeralDigits then .ok (.int (natOfDigits digits))
      else .error (.longNumeral (some digits.length))

-- Segments are separated by points.
def parsePath (t : Text) : Except Failure (List Datum) :=
  (t.split (.char '.')).mapM parseSegment

-- Steps that take a name, which may be left out.
def namedSteps : List (Text × Verb) :=
  [("gather_array", .gatherArray), ("gather_keys", .gatherKeys), ("json_types", .jsonTypes),
    ("json_lengths", .jsonLengths), ("json_complexity", .jsonComplexity),
    ("append_string", .appendValues .string), ("append_number", .appendValues .number),
    ("append_logical", .appendValues .logical), ("spread_all", .spreadAll)]

def descriptorKinds : List (Text × Kind) :=
  [("string", .string), ("number", .number), ("logical", .logical)]

def stageOf (verb : Verb) (positions : List Datum)
    (names : List (Text × Datum) := []) : Stage :=
  { verb := verb.name, arguments := ⟨positions, names⟩ }

-- A column, a kind and a path, separated by the first two colons.
def parseSpread (argument : Text) : Traced Stage := do
  let (column, rest) := argument.cut (.char ':')
  let (kind, path) := match rest with
    | none => ([], none)
    | some rest => rest.cut (.char ':')
  match column, descriptorKinds.lookup kind, path with
  | c :: cs, some kind, some (p :: ps) => do
      let steps ← liftM (parsePath (p :: ps))
      let d ← Descriptor.make kind steps
      return stageOf .spreadValues [] [(c :: cs, .descriptor d)]
  | _, _, _ => throw (.badStep (.spreadForm argument.quoted))

-- Reads a step of the command line: its name, and after the first equals sign its argument.
def parseStep (t : Text) : Traced Stage := do
  let (name, argument) := t.cut (.char '=')
  let argument := argument.getD []
  match namedSteps.lookup name with
  | some verb => return stageOf verb (if argument.isEmpty then [] else [.text argument])
  | none =>
      if name = "enter_object" then
        if argument.isEmpty then throw (.badStep .missingKey)
        return stageOf .enterObject ((argument.split (.char '.')).map .text)
      else if name = "types" then
        if argument.isEmpty then throw (.badStep .missingTypes)
        return stageOf .filterJsonTypes ((argument.split (.char ',')).map .text)
      else if name = "spread" then parseSpread argument
      else throw (.badStep (.unknownStep name.quoted))

end Unnest.Command
