import Unnest.Proofs.Table.Room
import Unnest.Proofs.Table.Rows
import Unnest.Proofs.Text.Whole

namespace Unnest

-- A text that can be encoded, or no text.
def Datum.Whole (d : Datum) : Prop :=
  ∀ t, d = .text t → t.Whole

-- What the cells of a column are to be like for it to be exported: integers have room in 64 bits
-- if they are counts, and in a double if they are numbers, and texts can be encoded.
inductive ColumnType.Exports (bound : Nat) : ColumnType → Datum → Prop
  | missing {type : ColumnType} : type.Exports bound .none
  | text {t : Text} : t.Whole → string.Exports bound (.text t)
  | integer {n : Nat} : n ≤ bound → integer.Exports bound (.int n)
  | whole {n : Int} {x : Binary64} : Binary64.ofInt? n = some x → number.Exports bound (.int n)
  | real {x : Binary64} : number.Exports bound (.float x)
  | logical {b : Bool} : logical.Exports bound (.bool b)

namespace ColumnType.Exports

variable {bound : Nat} {type : ColumnType} {d : Datum}

theorem fits (h : type.Exports bound d) : type.Fits d := by
  cases h <;> first | exact .inl rfl | exact .inr rfl

theorem hasRoom (hbound : bound < 2 ^ 63) (h : type.Exports bound d) : type.HasRoom d := by
  cases h with
  | missing => exact hasRoom_none
  | integer hn =>
      refine ⟨?_, ?_⟩ <;> omega
  | whole hx => exact hasRoom_whole hx
  | text | real | logical => trivial

-- What is stored for a text can still be encoded.
theorem whole_settle (h : type.Exports bound d) : (type.settle d).Whole := by
  intro t ht
  cases h with
  | text hwhole => exact Datum.text.inj ht ▸ hwhole
  | whole hx =>
      obtain ⟨x, -, -, hsettle⟩ := exists_settle_whole (hasRoom_whole hx)
      cases hsettle.symm.trans ht
  | @real x =>
      rw [settle_real, Storage.realCell] at ht
      split at ht <;> cases ht
  | missing | integer | logical => cases ht

end ColumnType.Exports

theorem Column.cell_eq_none_or_mem (c : Column) (row : Nat) :
    c.cell row = .none ∨ c.cell row ∈ c.cells := by
  rw [cell, List.getD_eq_getElem?_getD]
  cases hcell : c.cells[row]? with
  | none => exact .inl rfl
  | some d => exact .inr (List.mem_of_getElem? hcell)

namespace Table

open Text

-- A table whose columns can be exported under their names.
structure Exports (bound : Nat) (t : Table) : Prop where
  documents : ∀ n ∈ t.documents, n ≤ bound
  names : ∀ e ∈ t.others, e.1.Whole
  cells : ∀ e ∈ t.others, ∀ d ∈ e.2.cells, e.2.type.Exports bound d

theorem Exports.columns {bound : Nat} {t : Table} (h : t.Exports bound) :
    ∀ e ∈ t.columns, e.1.Whole ∧ ∀ d ∈ e.2.cells, e.2.type.Exports bound d := by
  refine List.forall_mem_cons.mpr ⟨⟨whole_ofString _, fun d hd => ?_⟩, fun e he =>
    ⟨h.names e he, h.cells e he⟩⟩
  obtain ⟨n, hn, rfl⟩ := List.mem_map.mp hd
  exact .integer (h.documents n hn)

-- Rows may be dropped and repeated.
theorem Exports.select {bound : Nat} {t : Table} (h : t.Exports bound) {rows : List Nat}
    (hrows : ∀ r ∈ rows, r < t.rowCount) : (t.select rows).Exports bound := by
  refine ⟨fun n hn => ?_, fun e he => ?_, fun e he d hd => ?_⟩
  · obtain ⟨r, hr, rfl⟩ := List.mem_map.mp hn
    have hlt : r < t.documents.length := hrows r hr
    rw [List.getD_eq_getElem?_getD, List.getElem?_eq_getElem hlt]
    exact h.documents _ (List.getElem_mem hlt)
  · obtain ⟨c, hc, rfl⟩ := List.mem_map.mp he
    exact h.names c hc
  · obtain ⟨c, hc, rfl⟩ := List.mem_map.mp he
    obtain ⟨r, -, rfl⟩ := List.mem_map.mp hd
    rcases c.2.cell_eq_none_or_mem r with hnone | hmem
    · rw [hnone]
      exact .missing
    · exact h.cells c hc _ hmem

theorem Exports.write {bound : Nat} {t u : Table} (h : t.Exports bound) {name : Datum}
    {type : ColumnType} {cells : List Datum} (hname : name.Whole)
    (hcells : ∀ d ∈ cells, type.Exports bound d) (hu : t.withColumn name type cells = .ok u) :
    u.Exports bound := by
  obtain ⟨key, rfl, -, -, -, -, rfl⟩ := withColumn_ok hu
  refine ⟨h.documents, fun e he => ?_, fun e he => ?_⟩
  · rcases Entries.mem_of_mem_put he with rfl | he
    · exact hname key rfl
    · exact h.names e he
  · rcases Entries.mem_of_mem_put he with rfl | he
    · exact hcells
    · exact h.cells e he

-- Such a table is stored, and what is stored of it can be encoded.
theorem Exports.stored {bound : Nat} (hbound : bound < 2 ^ 63) {t : Table} (h : t.Exports bound) :
    ∃ columns, t.stored = .ok columns ∧
      ∀ e ∈ columns, e.1.Whole ∧ ∀ d ∈ e.2.cells, d.Whole := by
  have hcolumns := h.columns
  refine ⟨_, stored_eq (fun e he d hd => ((hcolumns e he).2 d hd).fits)
    (fun e he d hd => ((hcolumns e he).2 d hd).hasRoom hbound), fun c hc => ?_⟩
  obtain ⟨e, he, rfl⟩ := List.mem_map.mp hc
  obtain ⟨hname, hexports⟩ := hcolumns e he
  refine ⟨hname, fun d hd => ?_⟩
  obtain ⟨cell, hcell, rfl⟩ := List.mem_map.mp hd
  exact (hexports cell hcell).whole_settle

end Table

end Unnest
