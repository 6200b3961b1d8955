import Unnest.JsonTable.Columns

namespace Unnest

namespace Json

mutual

-- What lies below a value through objects only and is neither object nor array, in the order in
-- which it is read, with the keys that lead to it. There is room for as many nested calls as there
-- are levels: `Failure.overflow` is left out.
def leaves (keys : List Text) : Json → List (List Text × Json)
  | object es => leavesOfEntries keys es
  | array _ => []
  | j => [(keys, j)]
  termination_by structural j => j

def leavesOfEntries (keys : List Text) : List (Text × Json) → List (List Text × Json)
  | [] => []
  | (k, x) :: es => x.leaves (keys ++ [k]) ++ leavesOfEntries keys es
  termination_by structural es => es

end

-- The leaves of an object under their joined keys; any other value has none.
def namedLeaves (separator : Text) (j : Json) : List (Text × Json) :=
  match j with
  | object _ => (j.leaves []).map fun (keys, x) => (.join separator keys, x)
  | _ => []

end Json

namespace JsonTable

-- The cells under one name, and the type they have in common. Nulls have no say in it; without a
-- common type the cells become strings.
def spreadColumn (cells : List (Option Json)) : List ScalarKind × ColumnType ×
    Except Failure (List Datum) :=
  let kinds := [ScalarKind.logical, .number, .string].filter fun kind =>
    cells.any fun cell => cell.any (·.kind == kind.kind)
  let fill (kind : ScalarKind) (force : Bool) :=
    cells.mapM fun cell =>
      match cell with
      | none => .ok .none
      | some j => cellOf kind force j
  match kinds with
  | [kind] => (kinds, kind.columnType, fill kind false)
  | _ => (kinds, .string, fill .string true)

def separatorText : Datum → Except Failure Text
  | .text (c :: cs) => .ok (c :: cs)
  | _ => .error (.reject .separator)

-- A column for every scalar that lies below an object through objects only, named by its keys.
-- Of several scalars of one name in a row the last is taken, and an empty name is no name.
def spreadAll (t : JsonTable) (separator : Datum) : Traced JsonTable := do
  let separator ← liftM (separatorText separator)
  let leaves := t.nodes.map fun v => v.json.namedLeaves separator
  (leaves.flatten.filter (·.1.isEmpty)).forM fun _ =>
    Traced.note .debug .extraction "spread_all: skipping a value stored under an empty key"
  let rows := leaves.map fun row => Entries.ofList (row.filter fun (name, _) => !name.isEmpty)
  let names := (rows.flatMap (·.map Prod.fst)).eraseDups
  let result ← names.foldlM (fun result name => do
    let (kinds, type, cells) := spreadColumn (rows.map (·.lookup name))
    if 1 < kinds.length then
      Traced.note .debug .extraction (.concat ["spread_all: column '", name, "' mixes ",
        listOf (kinds.map (·.kind.name.quoted)), ", storing as string"])
    liftM (result.withColumn (.text name) type (← liftM cells))) t
  Traced.note .debug .extraction (.concat ["spread_all: added ", .ofNat names.length,
    " columns"])
  return result

end JsonTable

end Unnest
