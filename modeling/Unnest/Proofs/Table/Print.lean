import Unnest.Proofs.Table.Export
import Unnest.Table.Listing

namespace Unnest

open Text

theorem whole_logicalWord (b : Bool) : (logicalWord b).Whole := by
  cases b <;> decide

theorem Text.Whole.csvField {t : Text} (h : t.Whole) : t.csvField.Whole := by
  unfold Text.csvField
  split
  · refine whole_concat ?_
    simp only [List.forall_mem_cons]
    refine ⟨whole_ofString _, .flatMap fun c hc => ?_, whole_ofString _, nofun⟩
    split
    · exact .cons (h c hc) (.cons (h c hc) nofun)
    · exact .cons (h c hc) nofun
  · exact h

theorem Text.whole_csvLine {fields : List Text} (h : ∀ t ∈ fields, t.Whole) :
    (csvLine fields).Whole := by
  refine whole_concat ?_
  simp only [List.forall_mem_cons]
  refine ⟨whole_join (whole_ofString _) fun t ht => ?_, whole_ofString _, nofun⟩
  obtain ⟨field, hfield, rfl⟩ := List.mem_map.mp ht
  exact (h field hfield).csvField

theorem Text.Whole.oneLine {t : Text} (h : t.Whole) : t.oneLine.Whole := by
  refine .flatMap fun c hc => ?_
  split
  · exact whole_ofString _
  split
  · exact whole_ofString _
  split
  · exact whole_ofString _
  · exact .cons (h c hc) nofun

theorem Binary64.whole_listed (x : Binary64) : x.listed.Whole := by
  have hdigits : Text.Whole ((x.fixed 6).reverse.dropWhile (· = .char '0')).reverse := by
    refine (x.whole_fixed 6).subset fun c hc => ?_
    have hmem := (List.dropWhile_sublist _).subset (List.mem_reverse.mp hc)
    exact List.mem_reverse.mp hmem
  have hfilled := hdigits.append (whole_chars ['0'])
  simp only [listed]
  split <;> split
  · exact hfilled
  · exact .cons (c := .char ' ') rfl hfilled
  · exact hdigits
  · exact .cons (c := .char ' ') rfl hdigits

namespace Table

theorem whole_csvText {d : Datum} (h : d.Whole) : (csvText d).Whole := by
  unfold csvText
  split
  · exact whole_logicalWord _
  · exact whole_ofInt _
  · exact Binary64.whole_text _
  · exact h _ rfl
  · exact nofun

theorem whole_listed {d : Datum} (h : d.Whole) : (listed d).Whole := by
  unfold listed
  split
  · exact whole_logicalWord _
  · exact whole_ofInt _
  · exact Binary64.whole_listed _
  · exact (h _ rfl).oneLine
  · exact whole_ofString _

theorem whole_heading {name : Text} (h : name.Whole) (type : ColumnType) :
    (heading name type).Whole := by
  unfold heading
  split
  · exact h.oneLine
  · exact .cons (c := .char ' ') rfl h.oneLine

theorem whole_alignRight {texts : List Text} (h : ∀ t ∈ texts, t.Whole) :
    ∀ t ∈ alignRight texts, t.Whole := by
  intro t ht
  obtain ⟨s, hs, rfl⟩ := List.mem_map.mp ht
  exact (whole_replicate _ ' ').append (h s hs)

theorem whole_emptyListing {names : List Text} (h : ∀ t ∈ names, t.Whole) :
    (emptyListing names).Whole := by
  refine whole_concat ?_
  simp only [List.forall_mem_cons]
  refine ⟨whole_ofString _, whole_join (whole_ofString _) fun t ht => h t (List.mem_of_mem_take ht),
    ?_, whole_ofString _, nofun⟩
  split
  · exact whole_ofString _
  · exact nofun

theorem mem_cellRows {columns : List (Text × Column)} {cells : List Datum}
    (h : cells ∈ cellRows columns) {d : Datum} (hd : d ∈ cells) :
    ∃ e ∈ columns, ∃ i, d = e.2.cell i := by
  unfold cellRows at h
  split at h
  · cases h
  · obtain ⟨i, -, rfl⟩ := List.mem_map.mp h
    obtain ⟨e, he, rfl⟩ := List.mem_map.mp hd
    exact ⟨e, he, i, rfl⟩

variable {bound : Nat} {t : Table}

theorem toCsv_ok (hbound : bound < 2 ^ 63) (h : t.Exports bound) :
    ∃ text, t.toCsv = .ok text ∧ text.Whole := by
  obtain ⟨columns, hstored, hcolumns⟩ := h.stored hbound
  refine ⟨_, Except.bind_eq_ok.mpr ⟨columns, hstored, rfl⟩, whole_concat fun line hline => ?_⟩
  obtain ⟨fields, hfields, rfl⟩ := List.mem_map.mp hline
  refine whole_csvLine fun field hfield => ?_
  rcases List.mem_cons.mp hfields with rfl | hrow
  · obtain ⟨e, he, rfl⟩ := List.mem_map.mp hfield
    exact (hcolumns e he).1
  · obtain ⟨cells, hcells, rfl⟩ := List.mem_map.mp hrow
    obtain ⟨d, hd, rfl⟩ := List.mem_map.mp hfield
    obtain ⟨e, he, i, rfl⟩ := mem_cellRows hcells hd
    refine whole_csvText ?_
    rcases e.2.cell_eq_none_or_mem i with hnone | hmem
    · rw [hnone]
      exact nofun
    · exact (hcolumns e he).2 _ hmem

theorem toListing_ok (hbound : bound < 2 ^ 63) (h : t.Exports bound) :
    ∃ text, t.toListing = .ok text ∧ text.Whole := by
  obtain ⟨columns, hstored, hcolumns⟩ := h.stored hbound
  unfold toListing
  rw [hstored, Except.ok_bind]
  split
  · refine ⟨_, rfl, whole_emptyListing fun name hname => ?_⟩
    obtain ⟨e, he, rfl⟩ := List.mem_map.mp hname
    exact (h.columns e he).1
  · refine ⟨_, rfl, whole_join (whole_ofString _) fun line hline => ?_⟩
    obtain ⟨i, -, rfl⟩ := List.mem_map.mp hline
    refine whole_join (whole_ofString _) fun entry hentry => ?_
    obtain ⟨block, hblock, rfl⟩ := List.mem_map.mp hentry
    obtain ⟨e, he, rfl⟩ := List.mem_map.mp hblock
    obtain ⟨hname, hcells⟩ := hcolumns e he
    have hwhole : ∀ entry ∈ alignRight (heading e.1 e.2.type :: e.2.cells.map listed),
        entry.Whole := by
      refine whole_alignRight (List.forall_mem_cons.mpr ⟨whole_heading hname _, fun t ht => ?_⟩)
      obtain ⟨d, hd, rfl⟩ := List.mem_map.mp ht
      exact whole_listed (hcells d hd)
    rw [List.getD_eq_getElem?_getD]
    cases hentry : (alignRight (heading e.1 e.2.type :: e.2.cells.map listed))[i]? with
    | none => exact nofun
    | some entry => exact hwhole entry (List.mem_of_getElem? hentry)

end Table

end Unnest
