import Unnest.Document
import Unnest.Table.Frame

namespace Unnest

-- A table with a JSON value for each of its rows, which says where the row came from.
structure JsonTable where
  table : Table
  nodes : List Node

-- What may be offered as the value of a row.
inductive Attachment where
  | node (v : Node)
  | stray (d : Datum)

namespace Attachment

def node? : Attachment → Option Node
  | node v => some v
  | stray _ => none

def typeName : Attachment → Text
  | node _ => "JsonValue"
  | stray d => d.typeName

end Attachment

namespace JsonTable

def equals (t u : JsonTable) : Except Failure Bool := do
  if ← t.table.equals u.table then return t.nodes == u.nodes else return false

def rowCount (t : JsonTable) : Nat :=
  t.table.rowCount

-- Every row gets one value, and every value has to be a node.
def ofParts (table : Table) (values : List Attachment) : Except Failure JsonTable :=
  if table.rowCount = values.length then
    match (values.zipIdx 1).find? fun (value, _) => value.node?.isNone with
    | some (value, row) =>
        .error (.reject (.attachmentType row value.typeName) (.record [("row", .ofNat row)]))
    | none => .ok ⟨table, values.filterMap Attachment.node?⟩
  else
    .error (.reject (.attachmentCount table.rowCount values.length)
      (.record [("table_rows", .ofNat table.rowCount),
        ("attachment_rows", .ofNat values.length)]))

def ofDocuments (nodes : List Node) : JsonTable :=
  ⟨.forDocuments nodes.length, nodes⟩

def withColumn (t : JsonTable) (name : Datum) (type : ColumnType) (cells : List Datum) :
    Except Failure JsonTable :=
  (t.table.withColumn name type cells).map ({ t with table := · })

-- New rows, each from the row at a position and with a value of its own.
def restack (t : JsonTable) (positions : List Int) (values : List Attachment) :
    Except Failure JsonTable := do
  ofParts (← t.table.take positions) values

def filterRows (t : JsonTable) (mask : List Bool) : Except Failure JsonTable := do
  let table ← t.table.filterRows mask
  return ⟨table, (t.nodes.zip mask).filterMap fun (v, keep) => if keep then some v else none⟩

def append (t u : JsonTable) : Except Failure JsonTable := do
  return ⟨← t.table.append u.table, t.nodes ++ u.nodes⟩

def rows (t : JsonTable) : List (List (Text × Datum) × Node) :=
  t.table.rows.zip t.nodes

def summary (t : JsonTable) : Text :=
  .concat ["TblJson(rows=", .ofNat t.rowCount, ", columns=",
    listOf (t.table.names.map Text.quoted), ")"]

end JsonTable

end Unnest
