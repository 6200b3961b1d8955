import Unnest.Datum.Answer
import Unnest.Table.Label

namespace Unnest

namespace Frame

-- A loose column leaves its type to be told from its cells.
structure Column where
  format : Storage.Format
  cells : List Datum

end Frame

-- Columns as they are exchanged with other programs. Their names are not checked. A frame is a data
-- frame of pandas 3.1. How one stores cells and labels is in `Storage` and `Label`; tables are made
-- from frames by `Table.ofFrame`, and frames from tables by `Table.toFrame`.
abbrev Frame := List (Datum × Frame.Column)

namespace Datum

-- Whether a cell is missing, as far as it says so.
def missing : Datum → Except Failure Bool
  | foreign (.custom c) => c.missing.get
  | d => .ok d.isMissing

-- A number of a machine format, or an object that stands for a single value, gives way to that.
def opened : Datum → Except Failure Datum
  | foreign (.custom c) =>
      match c.item with
      | some item => item.get.map Content.toDatum
      | Option.none => .ok (foreign (.custom c))
  | d => .ok d.unboxed

-- A cell of a table is missing only if it holds nothing.
def isNone : Datum → Bool
  | none => true
  | _ => false

-- The cell of a table for the cell of a frame.
def imported (d : Datum) : Except Failure Datum := do
  if ← d.missing then return none else d.opened

end Datum

namespace Frame

def rowCount : Frame → Nat
  | [] => 0
  | (_, c) :: _ => c.cells.length

-- Fills a short column up with missing cells. Where there is no room for them, integers become
-- doubles, and logicals are kept loosely.
def Column.fill (size : Nat) (c : Column) : Column :=
  if size ≤ c.cells.length then c
  else
    let missing := List.replicate (size - c.cells.length) Datum.none
    match c.format with
    | .machine .integer => ⟨.machine .number, c.cells.map Datum.asReal ++ missing⟩
    | .machine .logical => ⟨.loose, c.cells ++ missing⟩
    | format => ⟨format, c.cells ++ missing⟩

-- A column is never cut.
theorem Column.length_fill (size : Nat) (c : Column) :
    (c.fill size).cells.length = max size c.cells.length := by
  unfold fill
  split
  · omega
  · split <;> simp <;> omega

-- The machine stores the scalars of sequences that are even. Flat sequences are kept loosely all
-- the same, and sequences that nest further become lists.
def Column.storeMachine (type : ColumnType) (cells : List Datum) : Except Failure Column := do
  let shape := (Datum.list cells).shape
  unless shape.isEven do throw .malformed
  let stored ← Storage.machine type (Datum.scalarsOf cells)
  match shape.sizes.length with
  | 1 => return ⟨.machine type, stored⟩
  | 2 => return ⟨.loose, cells⟩
  | _ => return ⟨.machine type, Datum.nest shape.sizes (stored.map Datum.orNaN)⟩

def Column.store (c : Column) : Except Failure Column :=
  match c.format with
  | .loose => .ok c
  | .machine type => storeMachine type c.cells
  | .nullable type => (Storage.nullable type c.cells).map fun cells => { c with cells }

-- The frame of some columns, each stored in its format. The longest gives the number of rows.
def ofColumns (columns : List (Datum × Column)) : Except Failure Frame := do
  let stored ← columns.mapM fun (name, c) => do
    let c ← c.store
    if name.isKey then return (name, c) else throw .mismatch
  let stored := Entries.ofList stored
  let size := (stored.map (·.2.cells.length)).foldl max 0
  return stored.map fun (name, c) => (name, c.fill size)

end Frame

namespace Table

-- The columns of a table as a frame stores them. Missing cells stay missing, and a NaN becomes
-- missing.
def stored (t : Table) : Except Failure (List (Text × Column)) :=
  t.columns.mapM fun (name, c) =>
    (Storage.nullable c.type c.cells).map fun cells => (name, { c with cells })

def toFrame (t : Table) : Except Failure Frame :=
  t.stored.map (·.map fun (name, c) => (.text name, ⟨.nullable c.type, c.cells⟩))

-- The order in which types are tried for a column that declares none.
def inferred : List ColumnType :=
  [.string, .logical, .integer, .number]

-- The first type that all present cells fit.
def infer? (cells : List Datum) : Option ColumnType :=
  inferred.find? fun type => cells.all fun cell => cell.isNone || type.admits cell

-- A column of a table from one of a frame. What is missing does not count for its type.
def importColumn (name : Datum) (c : Frame.Column) : Except Failure (Text × Column) := do
  (← Validation.columnName true name).check
  let name := match name with
    | .text name => name
    | _ => []
  let cells ← c.cells.mapM Datum.imported
  match c.format.type? <|> infer? cells with
  | some type => return (name, ⟨type, cells⟩)
  | none => throw (.reject (.mixedCells name) (.record [("column", .text name)]))

-- A table from columns under their labels. Without numbers of documents it has one document for
-- each row.
def ofLabelled (rowCount : Nat) (frame : Frame) : Traced Table := do
  let columns ← liftM (frame.mapM fun (name, c) => importColumn name c)
  Traced.note .debug .table (.concat ["Imported DataFrame with ", .ofNat rowCount, " rows and ",
    .ofNat frame.length, " columns"])
  let numbered :=
    if columns.any (·.1 = documentColumn) then columns
    else (documentColumn, (forDocuments rowCount).documentCells) :: columns
  liftM (ofColumns? numbered)

-- The names of a frame become labels first.
def ofFrame (frame : Frame) : Traced Table := do
  let names ← liftM (Label.ofNames (frame.map Prod.fst))
  ofLabelled frame.rowCount (names.zip (frame.map Prod.snd))

end Table

end Unnest
