import Unnest.Datum.Answer
import Unnest.JsonTable.Basic
import Unnest.Json.Spelling

namespace Unnest.JsonTable

def jsonTypes (t : JsonTable) (column : Datum) : Except Failure JsonTable :=
  t.withColumn column .string (t.nodes.map fun v => .text v.kind.name)

def jsonLengths (t : JsonTable) (column : Datum) : Except Failure JsonTable :=
  t.withColumn column .integer (t.nodes.map fun v => .ofNat v.json.length)

def jsonComplexity (t : JsonTable) (column : Datum) : Except Failure JsonTable :=
  t.withColumn column .integer (t.nodes.map fun v => .ofNat v.json.leafCount)

def fieldDescriptor (name : Text) (d : Datum) : Except Failure Descriptor :=
  match d with
  | .descriptor d => .ok d
  | d => .error (.reject (.notDescriptor name d.typeName) (.record [("column", .text name)]))

def fieldDescriptors (fields : List (Text × Datum)) : Except Failure (List (Text × Descriptor)) :=
  fields.mapM fun (name, d) => (fieldDescriptor name d).map (name, ·)

-- One column for each descriptor. All of them read the same values.
def spreadValues (t : JsonTable) (fields : List (Text × Datum)) : Traced JsonTable := do
  let descriptors ← liftM (fieldDescriptors fields)
  descriptors.foldlM (fun result (name, d) => do
    let cells := t.nodes.map d.resolve
    Traced.note .debug .extraction (.concat ["spread_values: column '", name, "' missing in ",
      .ofNat (cells.countP Option.isNone), " of ", .ofNat cells.length, " rows"])
    liftM (result.withColumn (.text name) d.kind.columnType (cells.map (·.getD .none)))) t

-- The cell for a scalar of another kind. What has no conversion is missing.
def convert (kind : ScalarKind) (j : Json) : Except Failure Datum :=
  match kind with
  | .string => j.scalarText.map fun t => (t.map .text).getD .none
  | .number => .ok ((j.scalarNumber.map .ofNumber).getD .none)
  | .logical => .ok ((j.scalarLogical.map .bool).getD .none)

-- The cell for a value. Whether values of other kinds are to be converted is not asked before there
-- is one.
def cellOf (kind : ScalarKind) (force : Datum) (j : Json) : Except Failure Datum :=
  if j.kind = kind.kind then .ok j.toDatum
  else do
    if ← force.truth then convert kind j else return .none

def appendValues (t : JsonTable) (kind : ScalarKind) (column force : Datum) :
    Except Failure JsonTable := do
  let cells ← t.nodes.mapM fun v => cellOf kind force v.json
  t.withColumn column kind.columnType cells

theorem cellOf_bool (kind : ScalarKind) (force : Bool) (j : Json) :
    cellOf kind force j =
      if j.kind = kind.kind then .ok j.toDatum
      else if force then convert kind j else .ok .none :=
  rfl

end Unnest.JsonTable
