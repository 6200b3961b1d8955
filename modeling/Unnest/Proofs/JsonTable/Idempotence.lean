import Unnest.Proofs.Datum.Equality
import Unnest.Proofs.JsonTable.Equality
import Unnest.Proofs.JsonTable.Extraction
import Unnest.Proofs.JsonTable.Sound

namespace Unnest

theorem ColumnType.Fits.proper {type : ColumnType} {d : Datum} (h : type.Fits d) : d.Proper := by
  rcases h with rfl | hadmits
  · exact .scalar rfl
  · cases d with
    | list _ | tuple _ | dict _ => cases type <;> cases hadmits
    | none | bool _ | int _ | float _ | text _ | kind _ | descriptor _ | machineInt _
    | machineBool _ | foreign _ => exact .scalar rfl

-- The cells are data as there are, which may be of another type than their column.
def Column.Proper (c : Column) : Prop :=
  ∀ d ∈ c.cells, d.Proper

def Table.Proper (t : Table) : Prop :=
  ∀ e ∈ t.others, e.2.Proper

theorem Table.Sound.proper {t : Table} (h : t.Sound) : t.Proper := fun e he d hd =>
  (h.cells e (List.mem_cons_of_mem _ he) d hd).proper

theorem Column.Proper.matches_self {c : Column} (h : c.Proper) : c.Matches c :=
  ⟨rfl, List.forall₂_same.mpr fun d hd => (h d hd).matches_self⟩

theorem Table.Proper.matches_self {t : Table} (h : t.Proper) : t.Matches t :=
  ⟨rfl, List.forall₂_same.mpr fun e he => ⟨rfl, (h e he).matches_self⟩⟩

namespace JsonTable

variable {t u : JsonTable}

theorem Aligned.equals_self (ht : t.Aligned) (h : t.table.Proper) : t.equals t = .ok true :=
  ht.equals_iff.mpr ⟨ht, h.matches_self, List.forall₂_same.mpr fun v _ => v.json.beq_self⟩

theorem write_write_self {new : List (Text × Column)} (hnew : (new.map Prod.fst).Nodup)
    (t : JsonTable) : (t.write new).write new = t.write new := by
  rw [write, write, Entries.putAll_putAll_self hnew]

theorem Writes.proper {nodes : List Node} {new : List (Text × Column)}
    {run : JsonTable → Except Failure JsonTable} (hwrites : Writes nodes new run)
    (h : t.table.Proper) : (t.write new).table.Proper :=
  Entries.forall_putAll (p := Column.Proper)
    (fun e he d hd => (hwrites.fits e he d hd).proper) h

-- A verb that only reads the values into columns may be called again with the same arguments. The
-- second call writes what is there already, and the table is equal to itself.
theorem extraction_idempotent (e : Extraction) (ht : t.Aligned) (hcells : t.table.Proper)
    (h : e.run t = .ok u) : e.run u = .ok u ∧ u.equals u = .ok true := by
  obtain ⟨new, -, hnodup, hwrites⟩ := e.writes ht h
  obtain rfl := Except.ok.inj (h.symm.trans (hwrites.result t ht rfl))
  refine ⟨?_, (ht.write new).equals_self (hwrites.proper hcells)⟩
  rw [hwrites.result _ (ht.write new) rfl, write_write_self hnodup]

-- A spread that makes a column of integers one of strings, where it stands, and adds another.
theorem extraction_idempotent_mixed :
    ∃ t u : JsonTable, t.table.names = [documentColumn, "a.b"] ∧
      (Verb.call .spreadAll .method {} t).result = .ok u ∧
      u.table.names = [documentColumn, "a.b", "c"] ∧
      u.table.columns.lookup ("a.b" : Text) = some ⟨.string, [.text "1", .text "x"]⟩ ∧
      (Verb.call .spreadAll .method {} u).result = .ok u ∧ u.equals u = .ok true := by
  let t : JsonTable := ⟨⟨[1, 2], [("a.b", ⟨.integer, [.int 7, .none]⟩)]⟩,
    [{ json := .object [("a", .object [("b", .number (.int 1))])] },
      { json := .object [("c", .logical true), ("a", .object [("b", .string "x")])] }]⟩
  have ht : t.Aligned := rfl
  have hcells : t.table.Proper :=
    List.forall_mem_singleton.mpr (List.forall_mem_cons.mpr
      ⟨.scalar rfl, List.forall_mem_singleton.mpr (.scalar rfl)⟩)
  let spreading : Extraction := ⟨.spreadAll, .method, {}, rfl⟩
  obtain ⟨u, hu, hnames, hcolumn⟩ : ∃ u, spreading.run t = .ok u ∧
      u.table.names = [documentColumn, "a.b", "c"] ∧
      u.table.columns.lookup ("a.b" : Text) = some ⟨.string, [.text "1", .text "x"]⟩ :=
    ⟨_, rfl, rfl, rfl⟩
  obtain ⟨hagain, hequals⟩ := extraction_idempotent spreading ht hcells hu
  exact ⟨t, u, rfl, hu, hnames, hcolumn, hagain, hequals⟩

end JsonTable

end Unnest
