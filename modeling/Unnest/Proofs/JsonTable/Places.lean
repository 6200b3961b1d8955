import Unnest.Proofs.Json.Levels
import Unnest.Proofs.JsonTable.Moves
import Unnest.Proofs.Table.Basic

namespace Unnest.JsonTable

-- Every row has a value.
def Aligned (t : JsonTable) : Prop :=
  t.table.documents.length = t.nodes.length

theorem aligned_ofDocuments (nodes : List Node) : (ofDocuments nodes).Aligned := by
  simp [Aligned, ofDocuments, Table.forDocuments]

-- The number of the document of each row, with the value of the row.
def places (t : JsonTable) : List (Nat × Node) :=
  t.table.documents.zip t.nodes

theorem map_fst_places {t : JsonTable} (h : t.Aligned) :
    t.places.map Prod.fst = t.table.documents :=
  List.map_fst_zip (Nat.le_of_eq h)

theorem map_snd_places {t : JsonTable} (h : t.Aligned) : t.places.map Prod.snd = t.nodes :=
  List.map_snd_zip (Nat.le_of_eq h.symm)

theorem withColumn_places {t u : JsonTable} {name : Datum} {type : ColumnType}
    {cells : List Datum} (h : t.withColumn name type cells = .ok u) :
    u.table.documents = t.table.documents ∧ u.nodes = t.nodes := by
  obtain ⟨table, htable, rfl⟩ := Except.map_eq_ok.mp h
  obtain ⟨key, -, -, -, -, -, rfl⟩ := Table.withColumn_ok htable
  exact ⟨rfl, rfl⟩

-- What is left of a list by a mask.
def kept (l : List α) (mask : List Bool) : List α :=
  (l.zip mask).filterMap fun (a, keep) => if keep then some a else none

theorem kept_sublist (l : List α) (mask : List Bool) : (kept l mask).Sublist l := by
  induction l generalizing mask with
  | nil => exact .refl _
  | cons a l ih =>
      cases mask with
      | nil => exact List.nil_sublist _
      | cons keep mask =>
          cases keep with
          | true => exact (ih mask).cons_cons a
          | false => exact (ih mask).cons a

theorem zip_kept (l : List α) (m : List β) (mask : List Bool) (h : l.length = m.length) :
    (kept l mask).zip (kept m mask) = kept (l.zip m) mask ∧
      (kept l mask).length = (kept m mask).length := by
  induction l generalizing m mask with
  | nil =>
      cases m with
      | nil => exact ⟨rfl, rfl⟩
      | cons b m => cases h
  | cons a l ih =>
      cases m with
      | nil => cases h
      | cons b m =>
          cases mask with
          | nil => exact ⟨rfl, rfl⟩
          | cons keep mask =>
              obtain ⟨hzip, hlength⟩ := ih m mask (Nat.succ.inj h)
              cases keep with
              | true => exact ⟨congrArg ((a, b) :: ·) hzip, congrArg (· + 1) hlength⟩
              | false => exact ⟨hzip, hlength⟩

theorem filterRows_places {t u : JsonTable} {mask : List Bool} (ht : t.Aligned)
    (h : t.filterRows mask = .ok u) : u.Aligned ∧ u.places = kept t.places mask := by
  obtain ⟨table, htable, hu⟩ := Except.bind_eq_ok.mp h
  obtain rfl := Except.ok.inj hu
  obtain ⟨hlength, rfl⟩ := Table.filterRows_ok htable
  have hdocuments : (t.table.select (Table.marked mask)).documents =
      kept t.table.documents mask :=
    Table.map_getD_marked hlength.symm 1
  obtain ⟨hzip, hkept⟩ := zip_kept t.table.documents t.nodes mask ht
  constructor
  · rw [Aligned, hdocuments]
    exact hkept
  · rw [places, hdocuments]
    exact hzip

-- Every row is followed by the rows that come from it, which belong to its document.
theorem offspring_places {t : JsonTable} (ht : t.Aligned) (children : Node → List (Datum × Node)) :
    (t.ofOffspring (t.offspring children)).places =
      t.places.flatMap fun e => (children e.2).map fun c => (e.1, c.2) := by
  rw [places, places, Table.zip_eq_map_zipIdx ht 1, ofOffspring, Table.select, List.map_map,
    List.zip_map', offspring]
  simp only [List.map_flatMap, List.flatMap_map, List.map_map]
  rfl

-- The number of steps that a descent takes.
def Descent.steps : Descent → Nat
  | elements | members => 1
  | walk keys => keys.length

theorem Descent.children_sublist_level (way : Descent) {v : Node} (h : v.json.WellFormed) :
    ((way.children v).map Prod.snd).Sublist (v.level way.steps) := by
  cases way with
  | elements =>
      simp only [children, Node.elements, List.map_map, steps, Node.level_one]
      cases v.json with
      | array xs =>
          rw [Json.branches, List.map_map]
          exact .refl _
      | null | logical _ | number _ | string _ | object _ => exact List.nil_sublist _
  | members =>
      simp only [children, Node.members, List.map_map, steps, Node.level_one]
      cases v.json with
      | object es =>
          rw [Json.branches, List.map_map]
          exact .refl _
      | null | logical _ | number _ | string _ | array _ => exact List.nil_sublist _
  | walk keys =>
      cases hw : v.walk? (keys.map .key) with
      | none => simp [children, hw]
      | some w =>
          have hmem : w ∈ v.level keys.length :=
            (Node.mem_level_iff h).mpr ⟨keys.map .key, List.length_map _, hw⟩
          simpa [children, hw, steps] using hmem

-- What a move does to the places: it leaves some out, or goes the same number of steps down from
-- each of them.
theorem Move.places {t u : JsonTable} (h : Move t u) (ht : t.Aligned) :
    u.Aligned ∧ (u.places.Sublist t.places ∨
      ∃ way : Descent, u.places =
        t.places.flatMap fun e => (way.children e.2).map fun c => (e.1, c.2)) := by
  cases h with
  | write hwritten =>
      obtain ⟨hdocuments, hnodes⟩ := withColumn_places hwritten
      constructor
      · rw [Aligned, hdocuments, hnodes]
        exact ht
      · rw [JsonTable.places, hdocuments, hnodes]
        exact .inl (.refl _)
  | keep hkept =>
      obtain ⟨halign, hplaces⟩ := filterRows_places ht hkept
      exact ⟨halign, .inl (hplaces ▸ kept_sublist t.places _)⟩
  | descend way =>
      refine ⟨?_, .inr ⟨way, offspring_places ht way.children⟩⟩
      simp [Aligned, ofOffspring, Table.select]

end Unnest.JsonTable
