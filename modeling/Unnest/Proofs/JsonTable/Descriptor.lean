import Unnest.Proofs.JsonTable.Refusal

namespace Unnest

namespace JsonTable

open Validation

-- What spreading writes under each name, and what it leaves.
theorem foldlM_spread {fields : List (Text × Descriptor)} (hnodup : (fields.map Prod.fst).Nodup)
    (hnames : ∀ a ∈ fields, Writable a.1) {t : JsonTable} (ht : t.Aligned) :
    ∃ u, fields.foldlM (fun u a => u.withColumn (.text a.1) a.2.kind.columnType
        (u.nodes.map fun v => (a.2.resolve v).getD .none)) t = .ok u ∧
      (∀ a ∈ fields, u.table.columns.lookup a.1 =
        some ⟨a.2.kind.columnType, t.nodes.map fun v => (a.2.resolve v).getD .none⟩) ∧
      ∀ name, name ∉ fields.map Prod.fst →
        u.table.columns.lookup name = t.table.columns.lookup name := by
  induction fields generalizing t with
  | nil => exact ⟨t, rfl, nofun, fun name _ => rfl⟩
  | cons a fields ih =>
      obtain ⟨hnew, hnodup⟩ := List.nodup_cons.mp hnodup
      obtain ⟨ha, hnames⟩ := List.forall_mem_cons.mp hnames
      obtain ⟨w, hw, haligned, -, -⟩ :=
        shows_withColumn_map ht ha fun v _ => a.2.fits_resolve v
      obtain ⟨-, hnodes⟩ := withColumn_places hw
      obtain ⟨u, hu, hwritten, hleft⟩ := ih hnodup hnames haligned
      have hput : w.table.columns = Entries.put a.1 ⟨a.2.kind.columnType,
          t.nodes.map fun v => (a.2.resolve v).getD .none⟩ t.table.columns := by
        obtain ⟨table, htable, rfl⟩ := Except.map_eq_ok.mp hw
        obtain ⟨key, hkey, -, -, -, -, rfl⟩ := Table.withColumn_ok htable
        obtain rfl := Datum.text.inj hkey
        exact Table.columns_put _ ha.2
      refine ⟨u, by rw [List.foldlM_cons, hw]; exact hu, ?_, fun name hname => ?_⟩
      · refine List.forall_mem_cons.mpr ⟨?_, hnodes ▸ hwritten⟩
        rw [hleft a.1 hnew, hput, Entries.lookup_put_self]
      · rw [List.map_cons, List.mem_cons, not_or] at hname
        rw [hleft name hname.2, hput, Entries.lookup_put_of_ne hname.1]

theorem fieldDescriptors_descriptor (fields : List (Text × Descriptor)) :
    fieldDescriptors (fields.map fun a => (a.1, .descriptor a.2)) = .ok fields := by
  rw [fieldDescriptors, Except.mapM_eq_ok_iff, List.forall₂_map_left_iff, List.forall₂_same]
  exact fun a _ => rfl

end JsonTable

end Unnest
