import Unnest.Proofs.Table.Rows
import Unnest.Proofs.Table.Sound

namespace Unnest.Table

open Entries

-- Columns with names of their own and a cell for each row, whatever the cells are.
structure Rectangular (t : Table) : Prop where
  names_nodup : t.names.Nodup
  lengths : ∀ e ∈ t.columns, e.2.cells.length = t.rowCount

theorem Sound.rectangular {t : Table} (h : t.Sound) : t.Rectangular :=
  ⟨h.names_nodup, h.lengths⟩

theorem keys_columns (t : Table) : t.columns.map Prod.fst = t.names := rfl

theorem lookup_schema (t : Table) (key : Text) :
    t.schema.lookup key = (t.columns.lookup key).map Column.type :=
  lookup_map (fun _ => Column.type) t.columns key

theorem lookup_row (t : Table) (i : Nat) (key : Text) :
    (t.row i).lookup key = (t.columns.lookup key).map (·.cell i) :=
  lookup_map (fun _ (c : Column) => c.cell i) t.columns key

theorem keys_row (t : Table) (i : Nat) : (t.row i).map Prod.fst = t.names := by
  simp [row, names, Function.comp_def]

theorem keys_schema (t : Table) : t.schema.map Prod.fst = t.names := by
  simp [schema, names, Function.comp_def]

theorem lookup_columns_of_ne {key : Text} (h : key ≠ documentColumn) (t : Table) :
    t.columns.lookup key = t.others.lookup key := by
  rw [columns, List.lookup_cons, beq_eq_false_iff_ne.mpr h]

theorem Rectangular.ne_of_mem_others {t : Table} (h : t.Rectangular) {e : Text × Column}
    (he : e ∈ t.others) : e.1 ≠ documentColumn := by
  intro heq
  have hmem : e.1 ∈ t.others.map Prod.fst := List.mem_map_of_mem he
  rw [heq] at hmem
  exact (List.nodup_cons.mp h.names_nodup).1 hmem

theorem Rectangular.length_of_lookup {t : Table} (h : t.Rectangular) {key : Text} {c : Column}
    (hc : t.columns.lookup key = some c) : c.cells.length = t.rowCount :=
  h.lengths (key, c) (mem_of_lookup hc)

-- The columns can be told from the schema and the rows.
theorem Rectangular.columns_eq {t : Table} (h : t.Rectangular) :
    t.columns = t.schema.map fun e =>
      (e.1, ⟨e.2, t.rows.map fun row => (row.lookup e.1).getD .none⟩) := by
  rw [schema, List.map_map]
  refine ((List.map_congr_left fun e he => ?_).trans (List.map_id _)).symm
  have hfound : t.columns.lookup e.1 = some e.2 := (lookup_eq_some_iff_mem h.names_nodup).mpr he
  have hcells : t.rows.map (fun row => (row.lookup e.1).getD .none) = e.2.cells := by
    refine List.ext_getElem ?_ fun i hi hi' => ?_
    · rw [List.length_map, length_rows, h.lengths e he]
    · simp [rows, lookup_row, hfound, Column.cell, hi']
  simp only [Function.comp_apply, hcells, id_eq]

theorem eq_of_columns {t u : Table} (h : t.columns = u.columns) : t = u := by
  obtain ⟨hdocuments, hothers⟩ := List.cons.inj h
  have hcells := (Column.mk.inj (Prod.mk.inj hdocuments).2).2
  have hinjective : Function.Injective Datum.ofNat := fun m n hmn =>
    Int.ofNat_inj.mp (Datum.int.inj hmn)
  obtain ⟨documents, others⟩ := t
  obtain rfl : documents = u.documents := hinjective.list_map hcells
  obtain rfl : others = u.others := hothers
  rfl

theorem Rectangular.ext {t u : Table} (ht : t.Rectangular) (hu : u.Rectangular)
    (hschema : t.schema = u.schema) (hrows : t.rows = u.rows) : t = u := by
  refine eq_of_columns ?_
  rw [ht.columns_eq, hu.columns_eq, hschema, hrows]

-- The columns of a name lie one below the other, those of the documents as well.
theorem Rectangular.columns_stack {t : Table} (h : t.Rectangular) (u : Table) :
    (t.stack u).columns = t.columns.map fun e => (e.1, e.2.stack (u.columns.lookup e.1)) := by
  refine congrArg₂ List.cons ?_ (List.map_congr_left fun e he => ?_)
  · have hfound : u.columns.lookup documentColumn = some u.documentCells := by
      rw [columns, List.lookup_cons_self]
    simp [hfound, documentCells, stack, Column.stack]
  · rw [lookup_columns_of_ne (h.ne_of_mem_others he)]

theorem Rectangular.lookup_stack {t : Table} (h : t.Rectangular) (u : Table) (key : Text) :
    (t.stack u).columns.lookup key =
      (t.columns.lookup key).map (·.stack (u.columns.lookup key)) := by
  rw [h.columns_stack u]
  exact lookup_map (fun name (c : Column) => c.stack (u.columns.lookup name)) t.columns key

theorem rowCount_stack (t u : Table) : (t.stack u).rowCount = t.rowCount + u.rowCount :=
  List.length_append

theorem Rectangular.schema_stack {t : Table} (h : t.Rectangular) (u : Table) :
    (t.stack u).schema = t.schema := by
  rw [schema, h.columns_stack u, List.map_map]
  rfl

theorem Rectangular.row_stack_left {t : Table} (h : t.Rectangular) (u : Table) {i : Nat}
    (hi : i < t.rowCount) : (t.stack u).row i = t.row i := by
  rw [row, h.columns_stack u, List.map_map, row]
  refine List.map_congr_left fun e he => ?_
  have hcell : i < e.2.cells.length := by rwa [h.lengths e he]
  simp [Column.cell, Column.stack, List.getElem?_append_left hcell]

theorem Rectangular.row_stack_right {t u : Table} (h : t.Rectangular)
    (hschema : Alike t.schema u.schema) (j : Nat) :
    Alike ((t.stack u).row (t.rowCount + j)) (u.row j) := by
  intro key
  have htypes := hschema key
  rw [lookup_schema, lookup_schema] at htypes
  rw [lookup_row, lookup_row, h.lookup_stack u]
  cases hc : t.columns.lookup key with
  | none =>
      rw [hc, Option.map_none, eq_comm, Option.map_eq_none_iff] at htypes
      rw [htypes]
      rfl
  | some c =>
      rw [hc, Option.map_some, eq_comm, Option.map_eq_some_iff] at htypes
      obtain ⟨d, hd, -⟩ := htypes
      have hle : c.cells.length ≤ t.rowCount + j := by
        rw [h.length_of_lookup hc]
        exact Nat.le_add_right ..
      simp [hd, Column.cell, Column.stack, List.getElem?_append_right hle,
        h.length_of_lookup hc]

-- A second table adds its rows, as far as names can tell.
theorem Rectangular.rows_stack {t u : Table} (h : t.Rectangular)
    (hschema : Alike t.schema u.schema) :
    ∃ later, (t.stack u).rows = t.rows ++ later ∧ List.Forall₂ Alike u.rows later := by
  refine ⟨(List.range u.rowCount).map fun j => (t.stack u).row (t.rowCount + j), ?_, ?_⟩
  · rw [rows, rowCount_stack, List.range_add, List.map_append, List.map_map]
    congr 1
    refine List.map_congr_left fun i hi => ?_
    exact h.row_stack_left u (List.mem_range.mp hi)
  · rw [rows, List.forall₂_map_left_iff, List.forall₂_map_right_iff, List.forall₂_same]
    exact fun j _ key => (h.row_stack_right hschema j key).symm

theorem Rectangular.stack {t u : Table} (ht : t.Rectangular) (hu : u.Rectangular)
    (hschema : Alike t.schema u.schema) : (t.stack u).Rectangular := by
  refine ⟨?_, fun e he => ?_⟩
  · rw [← keys_schema, ht.schema_stack u, keys_schema]
    exact ht.names_nodup
  · rw [ht.columns_stack u] at he
    obtain ⟨⟨name, c⟩, hc, rfl⟩ := List.mem_map.mp he
    have hfound := (lookup_eq_some_iff_mem ht.names_nodup).mpr hc
    have htypes := hschema name
    rw [lookup_schema, lookup_schema, hfound, Option.map_some, eq_comm,
      Option.map_eq_some_iff] at htypes
    obtain ⟨d, hd, -⟩ := htypes
    simp only [Column.stack, hd, Option.getD_some, List.length_append, rowCount_stack]
    rw [ht.length_of_lookup hfound, hu.length_of_lookup hd]

-- Two tables can be put together exactly if they have columns of the same names and types.
theorem Rectangular.append_eq_ok_iff {t u v : Table} (ht : t.Rectangular) :
    t.append u = .ok v ↔ Alike t.schema u.schema ∧ v = t.stack u := by
  have hkeys (name : Text) (w : Table) : name ∈ w.names ↔ (w.schema.lookup name).isSome = true := by
    rw [isSome_lookup, keys_schema]
  have hfound {e : Text × Column} (he : e ∈ t.others) :
      t.schema.lookup e.1 = some e.2.type := by
    rw [lookup_schema, (lookup_eq_some_iff_mem ht.names_nodup).mpr (List.mem_cons_of_mem _ he)]
    rfl
  have hother {e : Text × Column} (he : e ∈ t.others) :
      u.schema.lookup e.1 = (u.others.lookup e.1).map Column.type := by
    rw [lookup_schema, lookup_columns_of_ne (ht.ne_of_mem_others he)]
  rw [Table.append_eq_ok_iff, ← and_assoc]
  refine and_congr_left fun _ => ⟨fun ⟨hnames, htypes⟩ key => ?_, fun hschema => ⟨?_, ?_⟩⟩
  · by_cases hname : key ∈ t.names
    · obtain ⟨e, he, rfl⟩ := List.mem_map.mp hname
      rcases List.mem_cons.mp he with rfl | he
      · rw [schema, schema, columns, columns, List.map_cons, List.map_cons, List.lookup_cons_self,
          List.lookup_cons_self]
        rfl
      · have hsome := (hkeys e.1 u).mp ((hnames e.1).mp hname)
        have htype := htypes e he
        rw [hother he, Option.isSome_map] at hsome
        obtain ⟨d, hd⟩ := Option.isSome_iff_exists.mp hsome
        rw [hd, Option.getD_some] at htype
        rw [hfound he, hother he, hd, htype]
        rfl
    · have hnone (w : Table) (hw : key ∉ w.names) : w.schema.lookup key = none := by
        rwa [hkeys, Bool.not_eq_true, Option.isSome_eq_false_iff, Option.isNone_iff_eq_none] at hw
      rw [hnone t hname, hnone u fun h => hname ((hnames key).mpr h)]
  · intro name
    rw [hkeys, hkeys, hschema name]
  · intro e he
    have htype := hschema e.1
    rw [hfound he, hother he, eq_comm, Option.map_eq_some_iff] at htype
    obtain ⟨d, hd, htype⟩ := htype
    rw [hd, Option.getD_some, htype]

theorem Rectangular.append {t u v : Table} (ht : t.Rectangular) (hu : u.Rectangular)
    (h : t.append u = .ok v) : v.Rectangular := by
  obtain ⟨hschema, rfl⟩ := ht.append_eq_ok_iff.mp h
  exact ht.stack hu hschema

theorem Rectangular.select {t : Table} (h : t.Rectangular) (rows : List Nat) :
    (t.select rows).Rectangular := by
  refine ⟨?_, fun e he => ?_⟩
  · rw [names_select]
    exact h.names_nodup
  · rw [rowCount_select]
    rcases List.mem_cons.mp he with rfl | he
    · simp [documentCells, Table.select]
    · obtain ⟨⟨name, c⟩, -, rfl⟩ := List.mem_map.mp he
      exact List.length_map _

theorem Rectangular.withColumn {t u : Table} (h : t.Rectangular) {name : Datum}
    {type : ColumnType} {cells : List Datum} (hu : t.withColumn name type cells = .ok u) :
    u.Rectangular := by
  obtain ⟨key, -, -, hdocument, hlength, -, rfl⟩ := withColumn_ok hu
  refine ⟨?_, fun e he => ?_⟩
  · rw [← keys_columns, columns_put _ hdocument]
    exact nodup_keys_put _ _ h.names_nodup
  · rw [columns_put _ hdocument] at he
    rcases mem_of_mem_put he with rfl | he
    · exact hlength
    · exact h.lengths e he

end Unnest.Table
