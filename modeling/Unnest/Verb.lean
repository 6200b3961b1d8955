import Unnest.JsonTable.Rows
import Unnest.JsonTable.Spread

namespace Unnest

inductive Verb where
  | gatherArray
  | gatherKeys
  | gatherObject
  | enterObject
  | filterJsonTypes
  | spreadValues
  | spreadAll
  | appendValues (kind : ScalarKind)
  | jsonTypes
  | jsonLengths
  | jsonComplexity
  deriving DecidableEq, Repr

namespace Verb

-- In the order of their names.
def all : List Verb :=
  [appendValues .logical, appendValues .number, appendValues .string, enterObject,
    filterJsonTypes, gatherArray, gatherKeys, gatherObject, jsonComplexity, jsonLengths,
    jsonTypes, spreadAll, spreadValues]

def name : Verb → Text
  | gatherArray => "gather_array"
  | gatherKeys => "gather_keys"
  | gatherObject => "gather_object"
  | enterObject => "enter_object"
  | filterJsonTypes => "filter_json_types"
  | spreadValues => "spread_values"
  | spreadAll => "spread_all"
  | appendValues kind => .concat ["append_values_", kind.kind.name]
  | jsonTypes => "json_types"
  | jsonLengths => "json_lengths"
  | jsonComplexity => "json_complexity"

def ofName? (t : Text) : Option Verb :=
  all.find? (·.name = t)

-- A parameter without a preset has to be given.
structure Parameter where
  name : Text
  preset : Option Datum := none

-- The parameters of a verb. A verb whose arguments are not listed takes any number of them,
-- either by position or by name.
inductive Signature where
  | listed (parameters : List Parameter)
  | positions
  | names

def columnParameter (preset : Text) : Parameter :=
  ⟨"column_name", some (.text preset)⟩

def signature : Verb → Signature
  | gatherArray => .listed [columnParameter "array.index"]
  | gatherKeys | gatherObject => .listed [columnParameter "key"]
  | enterObject | filterJsonTypes => .positions
  | spreadValues => .names
  | spreadAll => .listed [⟨"sep", some (.text ".")⟩]
  | appendValues kind =>
      .listed [columnParameter kind.kind.name, ⟨"force", some (.bool false)⟩]
  | jsonTypes => .listed [columnParameter "type"]
  | jsonLengths => .listed [columnParameter "length"]
  | jsonComplexity => .listed [columnParameter "complexity"]

-- Applies a verb to arguments that fit its signature: one value for each listed parameter, or
-- all positions, or all names.
def apply (verb : Verb) (args : List Datum) (named : List (Text × Datum)) (t : JsonTable) :
    Traced JsonTable :=
  match verb, args with
  | gatherArray, [column] => t.gatherArray column
  | gatherKeys, [column] | gatherObject, [column] => t.gatherKeys column
  | enterObject, keys => t.enterObject keys
  | filterJsonTypes, types => t.filterJsonTypes types
  | spreadValues, _ => t.spreadValues named
  | spreadAll, [separator] => t.spreadAll separator
  | appendValues kind, [column, force] => liftM (t.appendValues kind column force)
  | jsonTypes, [column] => liftM (t.jsonTypes column)
  | jsonLengths, [column] => liftM (t.jsonLengths column)
  | jsonComplexity, [column] => liftM (t.jsonComplexity column)
  | _, _ => throw .mismatch

-- What a verb demands of its arguments, whatever it is applied to.
def check (verb : Verb) (args : List Datum) (named : List (Text × Datum)) : Traced Unit :=
  match verb, args with
  | gatherArray, [column] => JsonTable.checkNewColumn "gather_array" column
  | gatherKeys, [column] | gatherObject, [column] => JsonTable.checkNewColumn "gather_keys" column
  | enterObject, keys => liftM ((JsonTable.keyPath keys).map fun _ => ())
  | filterJsonTypes, types => liftM ((JsonTable.kindsNamed types).map fun _ => ())
  | spreadValues, _ => liftM ((JsonTable.fieldDescriptors named).map fun _ => ())
  | spreadAll, [separator] => liftM ((JsonTable.separatorText separator).map fun _ => ())
  | _, _ => pure ()

-- A table without values gives a verb nothing to read. Only with nothing to look for is it handed
-- back as it is.
def applyToTable (verb : Verb) (args : List Datum) (named : List (Text × Datum)) (t : Table) :
    Traced Table := do
  verb.check args named
  if verb = spreadValues ∧ named.isEmpty then return t
  throw .noSuchOperation

end Verb

end Unnest
