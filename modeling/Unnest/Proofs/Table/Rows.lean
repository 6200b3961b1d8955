import Unnest.Proofs.Entries
import Unnest.Proofs.Table.Basic

namespace Unnest

namespace Table

open Validation

-- The names and the types of the columns.
def schema (t : Table) : List (Text × ColumnType) :=
  t.columns.map fun e => (e.1, e.2.type)

theorem withColumn_eq_ok {t : Table} {key : Text} {type : ColumnType} {cells : List Datum}
    (hkey : Writable key) (hlength : cells.length = t.rowCount)
    (hfits : ∀ d ∈ cells, type.Fits d) :
    t.withColumn (.text key) type cells =
      .ok { t with others := Entries.put key ⟨type, cells⟩ t.others } := by
  simp only [withColumn, columnName_of_writable hkey, cells_of_fits hfits, hlength, ne_eq,
    not_true_eq_false, if_false]
  rfl

-- The numbers of the documents stay in front, whatever is written.
theorem columns_put {t : Table} {key : Text} (c : Column) (h : key ≠ documentColumn) :
    columns { t with others := Entries.put key c t.others } = Entries.put key c t.columns := by
  have hne : (documentColumn == key) = false := beq_eq_false_iff_ne.mpr h.symm
  rw [columns, columns, Entries.put, hne]
  rfl

theorem columns_putAll {t : Table} {new : List (Text × Column)}
    (hnew : documentColumn ∉ new.map Prod.fst) :
    columns { t with others := Entries.putAll new t.others } = Entries.putAll new t.columns := by
  induction new generalizing t with
  | nil => rfl
  | cons e new ih =>
      rw [List.map_cons, List.mem_cons, not_or] at hnew
      have hput := columns_put (t := t) e.2 (Ne.symm hnew.1)
      have hrest := ih (t := { t with others := Entries.put e.1 e.2 t.others }) hnew.2
      rw [hput] at hrest
      exact hrest

theorem schema_put {t : Table} {key : Text} (c : Column) (h : key ≠ documentColumn) :
    schema { t with others := Entries.put key c t.others } = Entries.put key c.type t.schema := by
  rw [schema, columns_put c h]
  exact Entries.map_put Column.type key c t.columns

theorem row_put {t : Table} {key : Text} (c : Column) (h : key ≠ documentColumn) (i : Nat) :
    row { t with others := Entries.put key c t.others } i =
      Entries.put key (c.cell i) (t.row i) := by
  rw [row, columns_put c h, row]
  exact Entries.map_put (fun c => c.cell i) key c t.columns

-- What is written to a column is written to each row.
theorem rows_put {t : Table} {key : Text} {c : Column} (h : key ≠ documentColumn)
    (hlength : c.cells.length = t.rowCount) :
    rows { t with others := Entries.put key c t.others } =
      (t.rows.zip c.cells).map fun e => Entries.put key e.2 e.1 := by
  refine List.ext_getElem ?_ fun i hi hi' => ?_
  · rw [length_rows, List.length_map, List.length_zip, length_rows, hlength, Nat.min_self]
    rfl
  · have hcell : i < c.cells.length := by
      rw [length_rows] at hi
      rwa [hlength]
    simp [rows, row_put c h, Column.cell, hcell]

-- A column that has been written is found, and its cells are those of the rows.
theorem column_of_withColumn {t u : Table} {key : Text} {type : ColumnType} {cells : List Datum}
    (h : t.withColumn (.text key) type cells = .ok u) :
    u.column (.text key) = .ok ⟨type, u.rows.map fun row => (row.lookup key).getD .none⟩ := by
  obtain ⟨name, hname, -, hdocument, hlength, -, rfl⟩ := withColumn_ok h
  obtain rfl := Datum.text.inj hname
  have hcells : ((t.rows.zip cells).map fun e => Entries.put key e.2 e.1).map
      (fun row => (row.lookup key).getD .none) = cells := by
    have hcount : cells.length ≤ t.rows.length := by
      rw [length_rows]
      exact Nat.le_of_eq hlength
    calc
      _ = (t.rows.zip cells).map Prod.snd := by
        rw [List.map_map]
        refine List.map_congr_left fun e _ => ?_
        simp [Entries.lookup_put_self]
      _ = cells := List.map_snd_zip hcount
  have hfound := Entries.lookup_put_self key ⟨type, cells⟩ t.columns
  rw [rows_put hdocument hlength, hcells]
  simp only [column, column?, columns_put _ hdocument, hfound]
  rfl

@[simp] theorem schema_select (t : Table) (rows : List Nat) :
    (t.select rows).schema = t.schema := by
  simp [schema, columns, select, Column.select, documentCells, Function.comp_def]

-- A row has all the cells of the row that it is taken from.
theorem row_select {t : Table} {rows : List Nat} (hrows : ∀ r ∈ rows, r < t.rowCount) {i : Nat}
    (hi : i < rows.length) : (t.select rows).row i = t.row rows[i] := by
  have hr : rows[i] < t.documents.length := hrows _ (List.getElem_mem hi)
  simp [row, columns, select, Column.select, Column.cell, documentCells, hi, hr]

theorem rows_select {t : Table} {rows : List Nat} (hrows : ∀ r ∈ rows, r < t.rowCount) :
    (t.select rows).rows = rows.map t.row := by
  refine List.ext_getElem (by simp) fun i hi hi' => ?_
  simp only [List.length_map] at hi'
  simp [Table.rows, row_select hrows hi']

theorem lt_length_of_mem_marked {mask : List Bool} {i : Nat} (h : i ∈ marked mask) :
    i < mask.length := by
  obtain ⟨⟨keep, row⟩, hrow, hi⟩ := List.mem_filterMap.mp h
  obtain ⟨-, rfl⟩ : keep = true ∧ row = i := by simpa using hi
  simpa using List.snd_lt_of_mem_zipIdx hrow

theorem rows_select_marked {t : Table} {mask : List Bool} (h : mask.length = t.rowCount) :
    (t.select (marked mask)).rows =
      (t.rows.zip mask).filterMap fun (row, keep) => if keep then some row else none := by
  rw [rows_select fun r hr => h ▸ lt_length_of_mem_marked hr]
  rw [← map_getD_marked ((length_rows t).trans h.symm) []]
  refine List.map_congr_left fun i hi => ?_
  have hi := lt_length_of_mem_marked hi
  simp [rows, ← h, hi]

end Table

end Unnest
