import Unnest.JsonTable.Basic

namespace Unnest

-- Where documents can come from.
inductive Source where
  | tidy (t : JsonTable)
  | table (t : Table)
  | frame (f : Frame)
  | datum (d : Datum)

namespace Source

-- The documents of a text column. The other columns stay.
def ofTable (channel : Channel) (t : Table) (jsonColumn : Datum) (room : Headroom := none) :
    Traced JsonTable := do
  if let .none := jsonColumn then throw (.reject .missingJsonColumn)
  let context : Datum := .record [("json_column", jsonColumn)]
  match ← liftM (t.column? jsonColumn) with
  | none => do
      let shown ← liftM jsonColumn.plain
      throw (.reject (.unknownJsonColumn shown (listOf (t.names.map Text.quoted))) context)
  | some c =>
      let shown ← liftM jsonColumn.plain
      if c.type ≠ .string then throw (.reject (.jsonColumnType shown c.type) context)
      let nodes ← Document.parseAll channel c.cells room
      let others := t.others.filter fun (name, _) => jsonColumn != .text name
      liftM (JsonTable.ofParts { t with others } (nodes.map .node))

-- One row for each document. A table or a frame needs to be told which column holds them.
def load (channel : Channel) (source : Source) (jsonColumn : Datum) (room : Headroom := none) :
    Traced JsonTable :=
  match source with
  | tidy t => pure t
  | table t => ofTable channel t jsonColumn room
  | frame f => do ofTable channel (← Table.ofFrame f) jsonColumn room
  | datum d =>
      match jsonColumn with
      | .none =>
          match d with
          | .text _ => do return .ofDocuments [← Document.parse channel d 1 room]
          | .list ds | .tuple ds => do return .ofDocuments (← Document.parseAll channel ds room)
          | d => throw (.reject (.sourceType d.typeName))
      | column => throw (.reject .strayJsonColumn (.record [("json_column", column)]))

end Source

end Unnest
