import Unnest.Proofs.Table.Print
import Unnest.Proofs.Table.RoundTrip
import Unnest.Proofs.Text.Csv
import Unnest.Proofs.Text.Digit
import Unnest.Proofs.Text.Figures

namespace Unnest

open Text

theorem Text.ofInt_ne_nil (n : Int) : ofInt n ≠ [] := by
  unfold ofInt
  split
  · exact List.cons_ne_nil _ _
  · exact (ofNat_digits n.natAbs).1.ne_nil

theorem Text.Figures.return_not_mem {t : Text} (h : t.Figures) : .char '\r' ∉ t :=
  fun hreturn => absurd (h _ hreturn) (by decide)

theorem ColumnType.Cell.eq_of_settle_eq_text {type : ColumnType} {d : Datum} {s : Text}
    (h : type.Cell d) (hroom : type.HasRoom d) (hsettle : type.settle d = .text s) :
    d = .text s := by
  cases h with
  | whole =>
      obtain ⟨x, -, -, hx⟩ := exists_settle_whole hroom
      cases hx.symm.trans hsettle
  | @real x =>
      rw [settle_real, Storage.realCell] at hsettle
      split at hsettle <;> cases hsettle
  | text => exact hsettle
  | missing | integer | logical => cases hsettle

namespace Table

theorem return_not_mem_csvText {d : Datum} (h : ∀ s, d = .text s → .char '\r' ∉ s) :
    .char '\r' ∉ csvText d := by
  unfold csvText
  split
  · next b => cases b <;> decide
  · exact (figures_ofInt _).return_not_mem
  · exact (Binary64.figures_text _).return_not_mem
  · exact h _ rfl
  · exact List.not_mem_nil

theorem cellRows_columns (t : Table) :
    cellRows t.columns = t.rows.map (·.map Prod.snd) := by
  simp [cellRows, columns, rows, row, rowCount, documentCells, Function.comp_def]

variable {t : Table}

-- The number of the document keeps a line from being empty.
theorem csvRow_ne {row : List (Text × Datum)} (h : row ∈ t.rows) :
    row.map (fun e => csvText e.2) ≠ [] ∧ row.map (fun e => csvText e.2) ≠ [[]] := by
  obtain ⟨i, hi, rfl⟩ := List.mem_map.mp h
  have hlt : i < t.documents.length := List.mem_range.mp hi
  refine ⟨List.cons_ne_nil _ _, fun hrow => ofInt_ne_nil t.documents[i] ?_⟩
  have hcell : t.documentCells.cell i = .int t.documents[i] := by
    simp [Column.cell, documentCells, hlt, Datum.ofNat]
  have hhead : csvText (t.documentCells.cell i) = [] := (List.cons.inj hrow).1
  rwa [hcell] at hhead

-- A table that is exported is read as its names and its rows as they are stored, if no text in it
-- holds a carriage return, which is not quoted.
theorem readCsv_toCsv (h : t.Sound) (hroom : t.HasRoom)
    (hnames : ∀ name ∈ t.names, .char '\r' ∉ name)
    (hcells : ∀ e ∈ t.columns, ∀ s, .text s ∈ e.2.cells → .char '\r' ∉ s) :
    ∃ text, t.toCsv = .ok text ∧
      readCsv text = t.names :: t.settled.rows.map (·.map fun e => csvText e.2) := by
  have hheader : t.settled.columns.map Prod.fst = t.names := by
    rw [columns_settled, List.map_map]
    rfl
  have hlines : (cellRows t.settled.columns).map (·.map csvText) =
      t.settled.rows.map (·.map fun e => csvText e.2) := by
    simp [cellRows_columns, Function.comp_def]
  have hexport : t.toCsv = .ok (concat
      ((t.names :: t.settled.rows.map (·.map fun e => csvText e.2)).map csvLine)) := by
    rw [toCsv, stored_eq h.cells hroom, ← columns_settled, Except.ok_bind, hheader, hlines]
    rfl
  refine ⟨_, hexport, CsvReader.readCsv_csvLine ?_ ?_⟩
  · refine List.forall_mem_cons.mpr ⟨hnames, ?_⟩
    rw [← hlines]
    intro row hrow field hfield
    obtain ⟨cells, hcellsRow, rfl⟩ := List.mem_map.mp hrow
    obtain ⟨d, hd, rfl⟩ := List.mem_map.mp hfield
    obtain ⟨e, he, i, rfl⟩ := mem_cellRows hcellsRow hd
    refine return_not_mem_csvText fun s hs => ?_
    rw [columns_settled] at he
    obtain ⟨c, hc, rfl⟩ := List.mem_map.mp he
    rcases c.2.settled.cell_eq_none_or_mem i with hnone | hmem
    · cases hnone.symm.trans hs
    · obtain ⟨cell, hcell, hsettle⟩ := List.mem_map.mp hmem
      have htext : cell = .text s :=
        (h.cells c hc cell hcell).cell.eq_of_settle_eq_text (hroom c hc cell hcell)
          (hsettle.trans hs)
      exact hcells c hc s (htext ▸ hcell)
  · refine List.forall_mem_cons.mpr ⟨⟨List.cons_ne_nil _ _, ?_⟩, ?_⟩
    · have hdocument : documentColumn ≠ [] := by decide
      exact fun hempty => hdocument (List.cons.inj hempty).1
    · intro fields hfields
      obtain ⟨row, hrow, rfl⟩ := List.mem_map.mp hfields
      exact csvRow_ne hrow

end Table

end Unnest
