import Unnest.Datum.Equality
import Unnest.Validation

namespace Unnest

-- A cell that holds `Datum.none` is missing.
structure Column where
  type : ColumnType
  cells : List Datum

namespace Column

def equals (c d : Column) : Except Failure Bool :=
  if c.type = d.type then Datum.equalsAll c.cells d.cells else .ok false

-- The cell of a row; past the end every cell is missing.
def cell (c : Column) (row : Nat) : Datum :=
  c.cells.getD row .none

def select (c : Column) (rows : List Nat) : Column :=
  { c with cells := rows.map c.cell }

-- The numbers of documents, which are positive integers without gaps.
def documents? (c : Column) : Option (List Nat) :=
  if c.type = .integer then
    c.cells.mapM fun cell =>
      match cell with
      | .int n => if 1 ≤ n then some n.toNat else none
      | _ => none
  else none

end Column

-- Rows that come from documents, with a typed value in each column. The numbers of the documents
-- are kept apart, as every table has them; they count as the first column.
structure Table where
  documents : List Nat
  others : List (Text × Column)

namespace Table

def documentCells (t : Table) : Column :=
  ⟨.integer, t.documents.map Datum.ofNat⟩

def columns (t : Table) : List (Text × Column) :=
  (documentColumn, t.documentCells) :: t.others

def names (t : Table) : List Text :=
  t.columns.map Prod.fst

def rowCount (t : Table) : Nat :=
  t.documents.length

def equalsColumns : List (Text × Column) → List (Text × Column) → Except Failure Bool
  | [], [] => .ok true
  | (name, c) :: rest, (other, d) :: later => do
      if name = other then
        if ← c.equals d then equalsColumns rest later else return false
      else return false
  | _, _ => .ok false

-- Equal tables have equal columns in the same order.
def equals (t u : Table) : Except Failure Bool :=
  if t.columns.length = u.columns.length then equalsColumns t.columns u.columns else .ok false

-- One row for each document and no other column.
def forDocuments (count : Int) : Table :=
  ⟨List.range' 1 count.toNat, []⟩

-- A table has the numbers of its documents, and its columns are equally long.
def ofColumns? (columns : List (Text × Column)) : Except Failure Table :=
  let columns := Entries.ofList columns
  match columns.lookup documentColumn with
  | none => .error (.reject .missingDocuments)
  | some numbers =>
      match numbers.documents? with
      | none => .error (.reject .documents)
      | some documents =>
          match columns.find? fun (_, c) => c.cells.length != documents.length with
          | some (name, c) =>
              .error (.reject (.rowCount name c.cells.length documents.length)
                (.record [("column", .text name)]))
          | none => .ok ⟨documents, columns.filter fun (name, _) => name != documentColumn⟩

-- Only text names a column, but whatever could be the key of a mapping may be asked for.
def column? (t : Table) (name : Datum) : Except Failure (Option Column) :=
  if name.isKey then
    .ok (match name with
      | .text name => t.columns.lookup name
      | _ => none)
  else .error .mismatch

def column (t : Table) (name : Datum) : Except Failure Column := do
  match ← t.column? name with
  | some c => return c
  | none => throw (.noColumn (← name.plain))

-- A column that exists is replaced in its place, and a new one goes last.
def withColumn (t : Table) (name : Datum) (type : ColumnType) (cells : List Datum) :
    Except Failure Table := do
  let context : Datum := .record [("column", name)]
  (← Validation.columnName false name).check context
  let name := match name with
    | .text name => name
    | _ => []
  if cells.length ≠ t.rowCount then
    throw (.reject (.rowCount name cells.length t.rowCount) context)
  (← Validation.cells type cells).check context
  return { t with others := Entries.put name ⟨type, cells⟩ t.others }

-- The rows at the given positions, counted from zero; positions may repeat.
def select (t : Table) (rows : List Nat) : Table where
  documents := rows.map (t.documents.getD · 1)
  others := t.others.map fun (name, c) => (name, c.select rows)

-- A negative position counts from the end.
def position? (count : Nat) (i : Int) : Option Nat :=
  let i := if i < 0 then i + count else i
  if 0 ≤ i ∧ i < count then some i.toNat else none

def take (t : Table) (positions : List Int) : Except Failure Table :=
  match positions.mapM (position? t.rowCount) with
  | none => .error .rowOutOfRange
  | some rows => .ok (t.select rows)

-- The positions at which a mask is true.
def marked (mask : List Bool) : List Nat :=
  mask.zipIdx.filterMap fun (keep, row) => if keep then some row else none

def filterRows (t : Table) (mask : List Bool) : Except Failure Table :=
  if mask.length = t.rowCount then .ok (t.select (marked mask))
  else .error (.reject (.maskLength mask.length t.rowCount))

def shownNames (t : Table) : Text :=
  listOf (t.names.map Text.quoted)

-- Puts the rows of a second table below those of the first. The columns are matched by name.
def append (t u : Table) : Except Failure Table := do
  unless t.names.all u.names.contains && u.names.all t.names.contains do
    throw (.reject (.columnSets t.shownNames u.shownNames))
  let others ← t.others.mapM fun (name, c) =>
    let d := (u.others.lookup name).getD ⟨c.type, []⟩
    if c.type = d.type then .ok (name, { c with cells := c.cells ++ d.cells })
    else .error (.reject (.columnTypes name c.type d.type) (.record [("column", .text name)]))
  return ⟨t.documents ++ u.documents, others⟩

def row (t : Table) (i : Nat) : List (Text × Datum) :=
  t.columns.map fun (name, c) => (name, c.cell i)

def rows (t : Table) : List (List (Text × Datum)) :=
  (List.range t.rowCount).map t.row

@[simp] theorem rowCount_select (t : Table) (rows : List Nat) :
    (t.select rows).rowCount = rows.length := by
  simp [rowCount, select]

@[simp] theorem names_select (t : Table) (rows : List Nat) :
    (t.select rows).names = t.names := by
  simp [names, columns, select]

@[simp] theorem rowCount_forDocuments (count : Int) :
    (forDocuments count).rowCount = count.toNat := by
  simp [rowCount, forDocuments]

@[simp] theorem length_rows (t : Table) : t.rows.length = t.rowCount := by
  simp [rows]

-- What a table is, in one line.
def summary (t : Table) : Text :=
  .concat ["TypedTable(rows=", .ofNat t.rowCount, ", columns=", t.shownNames, ")"]

end Table

end Unnest
