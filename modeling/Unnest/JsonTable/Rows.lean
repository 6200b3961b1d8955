import Unnest.Datum.Member
import Unnest.JsonTable.Basic

namespace Unnest.JsonTable

-- A row to be made: the position of the row it comes from, the cell it adds and its value.
structure Offspring where
  source : Nat
  cell : Datum
  node : Node

-- The rows that come from each row, in order.
def offspring (t : JsonTable) (children : Node → List (Datum × Node)) : List Offspring :=
  t.nodes.zipIdx.flatMap fun (v, source) =>
    (children v).map fun (cell, node) => { source, cell, node }

-- The rows come from rows that there are, and each has a value, so that nothing is checked.
def ofOffspring (t : JsonTable) (rows : List Offspring) : JsonTable :=
  ⟨t.table.select (rows.map Offspring.source), rows.map Offspring.node⟩

-- A source row is dropped when no row comes from it.
def noteRows (verb : Text) (t : JsonTable) (rows : List Offspring) : Traced Unit :=
  let dropped := t.rowCount - (rows.map Offspring.source).eraseDups.length
  .note .debug .structural (.concat [verb, ": ", .ofNat t.rowCount, " rows in, ",
    .ofNat rows.length, " rows out, ", .ofNat dropped, " source rows dropped"])

-- A verb that makes rows adds a column, and its name is checked before anything else.
def checkNewColumn (verb : Text) (column : Datum) : Traced Unit := do
  let found ← liftM (Validation.columnName false column)
  found.require .structural (.record [("verb", .text verb)])

def gather (t : JsonTable) (verb : Text) (type : ColumnType) (column : Datum)
    (children : Node → List (Datum × Node)) : Traced JsonTable := do
  checkNewColumn verb column
  let rows := t.offspring children
  let result ← liftM ((t.ofOffspring rows).withColumn column type (rows.map Offspring.cell))
  noteRows verb t rows
  return result

-- One row for each element of an array; a row with any other value gives none.
def gatherArray (t : JsonTable) (column : Datum) : Traced JsonTable :=
  t.gather "gather_array" .integer column fun v =>
    v.elements.map fun (position, w) => (.ofNat position, w)

-- One row for each entry of an object; a row with any other value gives none.
def gatherKeys (t : JsonTable) (column : Datum) : Traced JsonTable :=
  t.gather "gather_keys" .string column fun v => v.members.map fun (key, w) => (.text key, w)

def keyText (keys : List Datum) (key : Datum) : Except Failure Text :=
  match key with
  | .text k => .ok k
  | d => .error (.reject (.keyType d.typeName) (.record [("keys", .list keys)]))

-- At least one key, and nothing but keys.
def keyPath (keys : List Datum) : Except Failure (List Text) :=
  if keys.isEmpty then .error (.reject .noKeys) else keys.mapM (keyText keys)

-- Follows keys down through objects. A row without one of the keys is dropped.
def enterObject (t : JsonTable) (keys : List Datum) : Traced JsonTable := do
  let path ← liftM (keyPath keys)
  let rows := t.offspring fun v => ((v.walk? (path.map .key)).map (.none, ·)).toList
  noteRows (.concat ["enter_object(", .join "." path, ")"]) t rows
  return t.ofOffspring rows

def kindNamed (d : Datum) : Except Failure Kind :=
  match Kind.ofDatum? d with
  | some k => .ok k
  | none => do throw (.reject (.unknownType (← d.quoted)))

-- Which rows have a value of a kind.
def isOfKind (t : JsonTable) (kind : Kind) : List Bool :=
  t.nodes.map (·.kind == kind)

def isJsonType (t : JsonTable) (type : Datum) : Except Failure (List Bool) :=
  (kindNamed type).map t.isOfKind

-- At least one kind.
def kindsNamed (types : List Datum) : Except Failure (List Kind) :=
  if types.isEmpty then .error (.reject .noTypes) else types.mapM kindNamed

def filterJsonTypes (t : JsonTable) (types : List Datum) : Traced JsonTable := do
  let wanted ← liftM (kindsNamed types)
  let result ← liftM (t.filterRows (t.nodes.map fun v => wanted.contains v.kind))
  Traced.note .debug .structural (.concat ["filter_json_types: ", .ofNat t.rowCount,
    " rows in, ", .ofNat result.rowCount, " rows out"])
  return result

end Unnest.JsonTable
