import Unnest.Proofs.Entries
import Unnest.Proofs.Table.Basic

namespace Unnest

-- What the columns are like that stand behind the numbers of the documents.
structure Column.Sound (count : Nat) (name : Text) (c : Column) : Prop where
  name_ne_nil : name ≠ []
  name_ne_document : name ≠ documentColumn
  length : c.cells.length = count
  fits : ∀ d ∈ c.cells, c.type.Fits d

namespace Table

-- A table begins with the numbers of its documents. Its columns have names of their own, a cell
-- for each row, and cells of their types.
structure Sound (t : Table) : Prop where
  numbers : ∃ c, t.columns.head? = some (documentColumn, c) ∧ c.type = .integer ∧
    ∀ d ∈ c.cells, ∃ n : Int, d = .int n ∧ 1 ≤ n
  names_nodup : t.names.Nodup
  names_ne_nil : ∀ name ∈ t.names, name ≠ []
  lengths : ∀ e ∈ t.columns, e.2.cells.length = t.rowCount
  cells : ∀ e ∈ t.columns, ∀ d ∈ e.2.cells, e.2.type.Fits d

theorem names_eq (t : Table) : t.names = documentColumn :: t.others.map Prod.fst := rfl

theorem Sound.parts {t : Table} (h : t.Sound) :
    (∀ n ∈ t.documents, 1 ≤ n) ∧ (t.others.map Prod.fst).Nodup ∧
      ∀ e ∈ t.others, e.2.Sound t.rowCount e.1 := by
  have hnodup := h.names_nodup
  rw [names_eq, List.nodup_cons] at hnodup
  refine ⟨fun n hn => ?_, hnodup.2, fun e he => ?_⟩
  · obtain ⟨c, hc, -, hcells⟩ := h.numbers
    obtain rfl := (Prod.mk.inj (Option.some.inj hc)).2
    obtain ⟨i, hi, hpos⟩ := hcells _ (List.mem_map_of_mem hn)
    have := Datum.int.inj hi
    omega
  · have hcolumn : e ∈ t.columns := List.mem_cons_of_mem _ he
    have hname : e.1 ∈ t.others.map Prod.fst := List.mem_map_of_mem he
    have hnil := h.names_ne_nil e.1 (List.mem_cons_of_mem _ hname)
    have hdocument : e.1 ≠ documentColumn := fun heq => hnodup.1 (heq ▸ hname)
    exact ⟨hnil, hdocument, h.lengths e hcolumn, h.cells e hcolumn⟩

theorem sound_of_parts {t : Table} (hdocuments : ∀ n ∈ t.documents, 1 ≤ n)
    (hnodup : (t.others.map Prod.fst).Nodup)
    (hothers : ∀ e ∈ t.others, e.2.Sound t.rowCount e.1) : t.Sound := by
  have hnumber : ∀ d ∈ t.documentCells.cells, ∃ n : Int, d = .int n ∧ 1 ≤ n := by
    intro d hd
    obtain ⟨n, hn, rfl⟩ := List.mem_map.mp hd
    exact ⟨n, rfl, by exact_mod_cast hdocuments n hn⟩
  refine ⟨⟨t.documentCells, rfl, rfl, hnumber⟩, ?_, ?_, ?_, ?_⟩
  · rw [names_eq, List.nodup_cons]
    refine ⟨fun hmem => ?_, hnodup⟩
    obtain ⟨e, he, heq⟩ := List.mem_map.mp hmem
    exact (hothers e he).name_ne_document heq
  · intro name hname
    rw [names_eq] at hname
    rcases List.mem_cons.mp hname with rfl | hname
    · decide
    · obtain ⟨e, he, rfl⟩ := List.mem_map.mp hname
      exact (hothers e he).name_ne_nil
  · intro e he
    rcases List.mem_cons.mp he with rfl | he
    · exact List.length_map _
    · exact (hothers e he).length
  · intro e he
    rcases List.mem_cons.mp he with rfl | he
    · intro d hd
      obtain ⟨n, rfl, -⟩ := hnumber d hd
      exact .inr rfl
    · exact (hothers e he).fits

theorem sound_forDocuments (count : Int) : (forDocuments count).Sound := by
  refine sound_of_parts (fun n hn => ?_) List.nodup_nil fun e he => ?_
  · exact (List.mem_range'_1.mp hn).1
  · cases he

-- Columns are checked for their lengths only when they are put together. What they hold has to be
-- known before.
theorem sound_ofColumns? {columns : List (Text × Column)} {t : Table}
    (hcolumns : ∀ e ∈ columns, e.1 ≠ [] ∧ ∀ d ∈ e.2.cells, e.2.type.Fits d)
    (h : ofColumns? columns = .ok t) : t.Sound := by
  simp only [ofColumns?] at h
  split at h
  · cases h
  · next numbers _ =>
    split at h
    · cases h
    · next documents hdocuments =>
      split at h
      · cases h
      · next hlengths =>
        obtain rfl := Except.ok.inj h
        obtain ⟨-, hpos⟩ := Column.documents?_eq_some hdocuments
        have hkeys := Entries.nodup_keys_ofList columns
        refine sound_of_parts hpos (hkeys.sublist ?_) fun e he => ?_
        · exact List.filter_sublist.map _
        · obtain ⟨hmem, hname⟩ := List.mem_filter.mp he
          obtain ⟨hnil, hfits⟩ := hcolumns e (Entries.mem_of_mem_ofList hmem)
          have hlength : e.2.cells.length = documents.length := by
            simpa using List.find?_eq_none.mp hlengths e hmem
          exact ⟨hnil, by simpa using hname, hlength, hfits⟩

-- Where all columns are equally long, only the numbers of the documents can be wrong.
theorem ofColumns?_of_mem {columns : List (Text × Column)} {numbers : Column}
    (hnodup : (columns.map Prod.fst).Nodup) (hnumbers : (documentColumn, numbers) ∈ columns)
    (hlengths : ∀ e ∈ columns, e.2.cells.length = numbers.cells.length) :
    ofColumns? columns =
      match numbers.documents? with
      | none => .error (.reject .documents)
      | some documents => .ok ⟨documents, columns.filter fun e => e.1 != documentColumn⟩ := by
  have hlookup : columns.lookup documentColumn = some numbers :=
    (Entries.lookup_eq_some_iff_mem hnodup).mpr hnumbers
  rw [ofColumns?, Entries.ofList_eq_self hnodup]
  simp only [hlookup]
  cases hdocuments : numbers.documents? with
  | none => rfl
  | some documents =>
      obtain ⟨rfl, -⟩ := Column.documents?_eq_some hdocuments
      have hnone : columns.find? (fun e => e.2.cells.length != documents.length) = none := by
        refine List.find?_eq_none.mpr fun e he => ?_
        have hlength : e.2.cells.length = documents.length :=
          (hlengths e he).trans (List.length_map _)
        simpa using hlength
      simp only [hnone]

-- The columns of a table make it up again.
theorem Sound.ofColumns?_columns {t : Table} (h : t.Sound) : ofColumns? t.columns = .ok t := by
  obtain ⟨hdocuments, -, -⟩ := h.parts
  have hlengths : ∀ e ∈ t.columns, e.2.cells.length = t.documentCells.cells.length :=
    fun e he => (h.lengths e he).trans (List.length_map _).symm
  have hkept : t.columns.filter (fun e => e.1 != documentColumn) = t.others :=
    @Entries.filter_ne_key _ _ _ _ [] t.others documentColumn t.documentCells h.names_nodup
  rw [ofColumns?_of_mem h.names_nodup List.mem_cons_self hlengths, hkept, documentCells,
    Column.documents?_of_pos hdocuments]

theorem Sound.select {t : Table} (h : t.Sound) (rows : List Nat) : (t.select rows).Sound := by
  obtain ⟨hdocuments, hnodup, hothers⟩ := h.parts
  refine sound_of_parts (fun n hn => ?_) ?_ fun e he => ?_
  · obtain ⟨row, -, rfl⟩ := List.mem_map.mp hn
    rw [List.getD_eq_getElem?_getD]
    cases hrow : t.documents[row]? with
    | none => exact Nat.le_refl 1
    | some n => exact hdocuments n (List.mem_of_getElem? hrow)
  · simpa [Table.select, Function.comp_def] using hnodup
  · obtain ⟨⟨name, c⟩, hc, rfl⟩ := List.mem_map.mp he
    obtain ⟨hnil, hdocument, -, hfits⟩ := hothers _ hc
    refine ⟨hnil, hdocument, ?_, fun d hd => ?_⟩
    · rw [rowCount_select]
      exact List.length_map _
    · obtain ⟨row, -, rfl⟩ := List.mem_map.mp hd
      rw [Column.cell, List.getD_eq_getElem?_getD]
      cases hrow : c.cells[row]? with
      | none => exact .inl rfl
      | some d => exact hfits d (List.mem_of_getElem? hrow)

-- Columns may go, but the documents stay.
theorem Sound.filter {t : Table} (h : t.Sound) (keep : Text × Column → Bool) :
    ({ t with others := t.others.filter keep } : Table).Sound := by
  obtain ⟨hdocuments, hnodup, hothers⟩ := h.parts
  refine sound_of_parts hdocuments (hnodup.sublist (List.filter_sublist.map _)) fun e he => ?_
  exact hothers e (List.mem_of_mem_filter he)

theorem Sound.withColumn {t u : Table} (h : t.Sound) {name : Datum} {type : ColumnType}
    {cells : List Datum} (hu : t.withColumn name type cells = .ok u) : u.Sound := by
  obtain ⟨hdocuments, hnodup, hothers⟩ := h.parts
  obtain ⟨key, -, hnil, hdocument, hlength, hfits, rfl⟩ := withColumn_ok hu
  refine sound_of_parts hdocuments (Entries.nodup_keys_put _ _ hnodup) fun e he => ?_
  rcases Entries.mem_of_mem_put he with rfl | he
  · exact ⟨hnil, hdocument, hlength, hfits⟩
  · exact hothers e he

theorem Sound.take {t u : Table} (h : t.Sound) {positions : List Int}
    (hu : t.take positions = .ok u) : u.Sound := by
  obtain ⟨rows, rfl⟩ := take_ok hu
  exact h.select rows

theorem Sound.filterRows {t u : Table} (h : t.Sound) {mask : List Bool}
    (hu : t.filterRows mask = .ok u) : u.Sound := by
  obtain ⟨-, rfl⟩ := filterRows_ok hu
  exact h.select _

theorem Sound.append {t u v : Table} (ht : t.Sound) (hu : u.Sound) (h : t.append u = .ok v) :
    v.Sound := by
  obtain ⟨hdocuments, hnodup, hothers⟩ := ht.parts
  obtain ⟨hdocuments', hnodup', hothers'⟩ := hu.parts
  obtain ⟨hnames, htypes, rfl⟩ := append_eq_ok_iff.mp h
  have hcount : (t.stack u).rowCount = t.rowCount + u.rowCount := List.length_append
  refine sound_of_parts ?_ (by simpa [stack, Function.comp_def] using hnodup) fun e he => ?_
  · intro n hn
    exact (List.mem_append.mp hn).elim (hdocuments n) (hdocuments' n)
  · obtain ⟨⟨name, c⟩, hc, rfl⟩ := List.mem_map.mp he
    obtain ⟨hnil, hdocument, hlength, hfits⟩ := hothers _ hc
    -- the column of the second table is there, as its names are those of the first
    have hkey : name ∈ t.others.map Prod.fst := List.mem_map.mpr ⟨_, hc, rfl⟩
    have hname : name ∈ u.names := (hnames name).mp (List.mem_cons_of_mem _ hkey)
    have hother := (List.mem_cons.mp hname).resolve_left hdocument
    obtain ⟨⟨_, d⟩, hd, rfl⟩ := List.mem_map.mp hother
    obtain ⟨-, -, hlength', hfits'⟩ := hothers' _ hd
    have hfound := (Entries.lookup_eq_some_iff_mem hnodup').mpr hd
    have htype := htypes _ hc
    simp only [Column.stack, hfound, Option.getD_some] at htype ⊢
    rw [hcount]
    refine ⟨hnil, hdocument, ?_, fun x hx => ?_⟩
    · rw [List.length_append, hlength, hlength']
    · rcases List.mem_append.mp hx with hx | hx
      · exact hfits x hx
      · exact htype ▸ hfits' x hx

end Table

end Unnest
