import Unnest.Verb

namespace Unnest

-- The ways in which a verb can be called. Each has names of its own that no argument may take.
inductive Form where
  | function
  | method
  | pipe
  deriving DecidableEq, Repr

namespace Form

def reserved : Form → List Text
  | function => ["tbl"]
  | method => ["self", "tbl"]
  | pipe => ["self", "func", "tbl"]

end Form

-- Arguments as they are written: first those given by position, then those given by name.
structure Arguments where
  positions : List Datum := []
  names : List (Text × Datum) := []

namespace Arguments

-- A name that is given twice has its last value.
def ofLists (positions : List Datum) (names : List (Text × Datum)) : Arguments :=
  ⟨positions, Entries.ofList names⟩

-- One value for each parameter: by position, else by name, else its preset.
def fill : List Verb.Parameter → Arguments → Option (List Datum)
  | [], ⟨[], []⟩ => some []
  | [], _ => none
  | p :: parameters, ⟨positions, names⟩ =>
      match positions with
      | x :: rest =>
          if (names.lookup p.name).isSome then none
          else (fill parameters ⟨rest, names⟩).map (x :: ·)
      | [] =>
          match names.lookup p.name <|> p.preset with
          | none => none
          | some x => (fill parameters ⟨[], names.filter (·.1 != p.name)⟩).map (x :: ·)

-- What a verb receives, unless the arguments do not fit its signature.
def bind? (arguments : Arguments) (verb : Verb) : Option Arguments :=
  match verb.signature with
  | .listed parameters => (fill parameters arguments).map ({ positions := · })
  | .positions => if arguments.names.isEmpty then some arguments else none
  | .names => if arguments.positions.isEmpty then some arguments else none

-- A text that names every argument in the order in which they are written.
def shown (arguments : Arguments) : Except Failure Text := do
  let positions ← arguments.positions.mapM Datum.quoted
  let names ← arguments.names.mapM fun (name, d) =>
    return .concat [name, "=", ← d.quoted]
  return .join ", " (positions ++ names)

end Arguments

def Form.refuses (form : Form) (arguments : Arguments) : Bool :=
  arguments.names.any fun (name, _) => form.reserved.contains name

namespace Verb

-- What a verb receives in a call, or a refusal.
def receive (verb : Verb) (form : Form) (arguments : Arguments) : Except Failure Arguments :=
  if form.refuses arguments then .error .mismatch
  else
    match arguments.bind? verb with
    | none => .error .mismatch
    | some bound => .ok bound

def call (verb : Verb) (form : Form) (arguments : Arguments) (t : JsonTable) :
    Traced JsonTable := do
  let bound ← liftM (verb.receive form arguments)
  verb.apply bound.positions bound.names t

-- A table without values has the verbs neither as methods nor through a pipe.
def callOnTable (verb : Verb) (form : Form) (arguments : Arguments) (t : Table) :
    Traced Table := do
  if form ≠ .function then throw .noSuchOperation
  let bound ← liftM (verb.receive form arguments)
  verb.applyToTable bound.positions bound.names t

end Verb

-- The kind that is asked for, in a call that is made like that of a verb, though not as a method.
def Form.kindAsked (form : Form) (arguments : Arguments) : Except Failure Kind :=
  if form = .method then .error .noSuchOperation
  else if form.refuses arguments then .error .mismatch
  else
    match Arguments.fill [⟨"json_type", none⟩] arguments with
    | some [type] => JsonTable.kindNamed type
    | _ => .error .mismatch

-- Which rows have a value of a kind.
def JsonTable.askJsonType (t : JsonTable) (form : Form) (arguments : Arguments) :
    Except Failure (List Bool) :=
  (form.kindAsked arguments).map t.isOfKind

-- A table without values has no rows to ask about.
def Table.askJsonType (_ : Table) (form : Form) (arguments : Arguments) :
    Except Failure (List Bool) :=
  if form = .pipe then .error .noSuchOperation
  else form.kindAsked arguments >>= fun _ => .error .noSuchOperation

end Unnest
