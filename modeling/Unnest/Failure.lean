import Unnest.Datum.Basic
import Unnest.Text.Quoted

namespace Unnest

inductive ColumnType where
  | string
  | number
  | integer
  | logical
  deriving DecidableEq, Repr

namespace ColumnType

def all : List ColumnType :=
  [string, number, integer, logical]

def name : ColumnType → Text
  | string => "string"
  | number => "number"
  | integer => "integer"
  | logical => "logical"

end ColumnType

def ScalarKind.columnType : ScalarKind → ColumnType
  | string => .string
  | number => .number
  | logical => .logical

inductive FaultType where
  | syntaxFault
  | invariant
  | reservedColumn
  | columnName
  | columnType
  | path
  | argument
  | source
  deriving DecidableEq, Repr

namespace FaultType

def all : List FaultType :=
  [syntaxFault, invariant, reservedColumn, columnName, columnType, path, argument, source]

def name : FaultType → Text
  | syntaxFault => "syntax"
  | invariant => "invariant"
  | reservedColumn => "reserved_column"
  | columnName => "column_name"
  | columnType => "column_type"
  | path => "path"
  | argument => "argument"
  | source => "source"

end FaultType

def documentColumn : Text := "document.id"

-- One thing that is wrong with a call or with a document. Texts named `shown` are already quoted,
-- or they are the digits of a number.
inductive Fault where
  | reported (type : FaultType) (message : Text)
  | documentType (type : Text)
  | emptyDocument
  | notJson (shown problem : Text) (line column : Nat)
  | notJsonConstant (shown name : Text)
  | objectKey (type : Text)
  | notJsonValue (type : Text)
  | columnName (shown : Text)
  | reservedColumn
  | emptyPath
  | pathStep (position : Nat) (type : Text)
  | descriptorKind (kind : Kind)
  | cell (row : Nat) (shown : Text) (type : ColumnType)
  | missingDocuments
  | documents
  | rowCount (column : Text) (found expected : Nat)
  | maskLength (found expected : Nat)
  | columnSets (shown shownOther : Text)
  | columnTypes (column : Text) (type other : ColumnType)
  | mixedCells (column : Text)
  | attachmentCount (rows values : Nat)
  | attachmentType (row : Nat) (type : Text)
  | missingJsonColumn
  | unknownJsonColumn (column shown : Text)
  | jsonColumnType (column : Text) (type : ColumnType)
  | strayJsonColumn
  | sourceType (type : Text)
  | noKeys
  | keyType (type : Text)
  | noTypes
  | unknownType (shown : Text)
  | notDescriptor (column type : Text)
  | separator
  | unknownVerb (name known : Text)
  deriving DecidableEq, Repr

namespace Fault

def type : Fault → FaultType
  | reported type _ => type
  | documentType _ | objectKey _ | notJsonValue _ | missingJsonColumn | unknownJsonColumn _ _
  | jsonColumnType _ _ | strayJsonColumn | sourceType _ => .source
  | emptyDocument | notJson _ _ _ _ | notJsonConstant _ _ => .syntaxFault
  | columnName _ => .columnName
  | reservedColumn | missingDocuments | documents => .reservedColumn
  | emptyPath | pathStep _ _ | descriptorKind _ | noKeys | keyType _ => .path
  | cell _ _ _ | columnSets _ _ | columnTypes _ _ _ | mixedCells _ => .columnType
  | rowCount _ _ _ | maskLength _ _ | attachmentCount _ _ | attachmentType _ _ => .invariant
  | noTypes | unknownType _ | notDescriptor _ _ | separator | unknownVerb _ _ => .argument

def message : Fault → Text
  | reported _ message => message
  | documentType type => .concat ["JSON document must be text, got ", type]
  | emptyDocument => "JSON string is empty"
  | notJson shown problem _ _ =>
      .concat ["Invalid JSON syntax in document ", shown, ": ", problem]
  | notJsonConstant shown name =>
      .concat ["Invalid JSON syntax in document ", shown, ": ", name, " is not a JSON value"]
  | objectKey type => .concat ["Object keys must be strings, got ", type]
  | notJsonValue type => .concat ["Unsupported JSON value type: ", type]
  | columnName shown => .concat ["Column name must be a non-empty string, got ", shown]
  | reservedColumn =>
      .concat ["Column '", documentColumn, "' is reserved and cannot be overwritten"]
  | emptyPath => "Path must contain at least one step"
  | pathStep position type =>
      .concat ["Path step ", .ofNat position, " must be a key or an integer index, got ", type]
  | descriptorKind kind =>
      .concat ["Path descriptors extract scalars, not ", kind.name, " values"]
  | cell row shown type =>
      .concat ["Row ", .ofNat row, ": ", shown, " is not a valid ", type.name, " cell"]
  | missingDocuments => .concat ["Table must have a '", documentColumn, "' column"]
  | documents => .concat ["Column '", documentColumn, "' must hold positive integers"]
  | rowCount column found expected =>
      .concat ["Column '", column, "' has ", .ofNat found, " rows, expected ", .ofNat expected]
  | maskLength found expected =>
      .concat ["Row mask has ", .ofNat found, " entries, expected ", .ofNat expected]
  | columnSets shown shownOther =>
      .concat ["Cannot append rows from a table with different columns: ", shown, " vs ",
        shownOther]
  | columnTypes column type other =>
      .concat ["Column '", column, "' is ", type.name, " here but ", other.name,
        " in the appended table"]
  | mixedCells column =>
      .concat ["Column '", column, "' mixes cell types that no single column type can hold"]
  | attachmentCount rows values =>
      .concat ["Table has ", .ofNat rows, " rows but the JSON attachment has ", .ofNat values,
        " values"]
  | attachmentType row type =>
      .concat ["Attachment of row ", .ofNat row, " is ", type, ", not a JSON value"]
  | missingJsonColumn => "A table source needs the name of its JSON column"
  | unknownJsonColumn column shown =>
      .concat ["Column '", column, "' not found; available columns: ", shown]
  | jsonColumnType column type =>
      .concat ["Column '", column, "' must hold JSON text, not ", type.name, " values"]
  | strayJsonColumn => "json_column only applies to table sources"
  | sourceType type => .concat ["Cannot build a tbl_json from ", type]
  | noKeys => "enter_object needs at least one key"
  | keyType type => .concat ["enter_object keys must be strings, got ", type]
  | noTypes => "filter_json_types needs at least one type"
  | unknownType shown =>
      .concat ["Unknown JSON type ", shown, "; expected one of ",
        .join ", " (Kind.all.map Kind.name)]
  | notDescriptor column type =>
      .concat ["spread_values expects path descriptors, got ", type, " for '", column, "'"]
  | separator => "spread_all needs a non-empty separator"
  | unknownVerb name known => .concat ["Unknown verb '", name, "'; known verbs: ", known]

-- Which part of what was checked the fault lies in, where a check tells.
def location : Fault → Option Text
  | documentType _ | emptyDocument | notJsonConstant _ _ => some "input"
  | notJson _ _ line column =>
      some (.concat ["line ", .ofNat line, ", column ", .ofNat column])
  | columnName _ | reservedColumn => some "column_name"
  | emptyPath => some "path"
  | pathStep position _ => some (.concat ["path[", .ofNat position, "]"])
  | cell row _ _ => some (.concat ["row ", .ofNat row])
  | _ => none

end Fault

-- A call is refused for one fault or for several; the first gives the type. The context holds
-- details of the call. Where a check gives them they are a record, but others may give any datum.
structure Rejection where
  first : Fault
  others : List Fault := []
  context : Datum := .none

namespace Rejection

def type (r : Rejection) : FaultType := r.first.type

def message (r : Rejection) : Text :=
  .join "; " ((r.first :: r.others).map Fault.message)

end Rejection

-- A step of the command line that cannot be read.
inductive StepFault where
  | unknownStep (shown : Text)
  | missingKey
  | missingTypes
  | spreadForm (shown : Text)
  deriving DecidableEq, Repr

def StepFault.message : StepFault → Text
  | unknownStep shown => .concat ["Unknown step ", shown]
  | missingKey => "enter_object needs a key, e.g. enter_object=purchases"
  | missingTypes => "types needs a list of JSON types, e.g. types=object,array"
  | spreadForm shown =>
      .concat ["spread expects NAME:KIND:PATH with KIND one of string, number, logical, got ",
        shown]

-- Everything that ends a call before its result. An overflow is a number that does not fit where it
-- has to go, or a nest of calls that is too deep.
inductive Failure where
  | rejected (r : Rejection)
  | badStep (fault : StepFault)
  | noColumn (column : Text)
  | noVerb (name : Text)
  | rowOutOfRange
  | longNumeral (digits : Option Nat)
  | notProfiling
  | exportFormat (name : Text)
  | notMember (shown collection : Text)
  | uneven (sizes : List Nat)
  | noSingleTruth (isEmpty : Bool)
  | nested
  | undecodable
  | unencodable
  | malformed
  | mismatch
  | overflow
  | noSuchOperation

namespace Failure

def reject (fault : Fault) (context : Datum := .none) : Failure :=
  rejected { first := fault, context }

def message : Failure → Text
  | rejected r => r.message
  | badStep fault => fault.message
  | noColumn column => .concat ["No column named '", column, "'"]
  | noVerb name => name
  | rowOutOfRange => "tuple index out of range"
  | longNumeral digits =>
      .concat ["Exceeds the limit (", .ofNat maxNumeralDigits,
        " digits) for integer string conversion",
        match digits with
        | none => []
        | some n => .concat [": value has ", .ofNat n, " digits"],
        "; use sys.set_int_max_str_digits() to increase the limit"]
  | notProfiling => "No active profiling session"
  | exportFormat name => .concat ["Unsupported export format: ", name]
  | notMember shown collection => .concat [shown, " is not a valid ", collection]
  | uneven sizes =>
      .concat ["setting an array element with a sequence. ",
        "The requested array has an inhomogeneous shape after ", .ofNat sizes.length,
        " dimensions. The detected shape was ", tupleOf (sizes.map Text.ofNat),
        " + inhomogeneous part."]
  | noSingleTruth true =>
      .concat ["The truth value of an empty array is ambiguous. Use `array.size > 0` to check ",
        "that an array is not empty."]
  | noSingleTruth false =>
      .concat ["The truth value of an array with more than one element is ambiguous. ",
        "Use a.any() or a.all()"]
  | nested | undecodable | unencodable | malformed | mismatch | overflow | noSuchOperation => []

end Failure

end Unnest
