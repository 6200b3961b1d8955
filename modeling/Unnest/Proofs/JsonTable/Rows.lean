import Unnest.Proofs.JsonTable.Places
import Unnest.Proofs.Table.Rows

namespace Unnest.JsonTable

open Validation

-- The cells of a row by name, with its value.
abbrev Row := List (Text × Datum) × Node

-- What can be seen of a table with values: its columns by name and type, and its rows.
structure Shows (t : JsonTable) (schema : List (Text × ColumnType)) (rows : List Row) : Prop where
  aligned : t.Aligned
  schema : t.table.schema = schema
  rows : t.rows = rows

theorem map_snd_rows {t : JsonTable} (h : t.Aligned) : t.rows.map Prod.snd = t.nodes := by
  refine List.map_snd_zip ?_
  rw [Table.length_rows, Table.rowCount, h]

theorem map_fst_rows {t : JsonTable} (h : t.Aligned) : t.rows.map Prod.fst = t.table.rows := by
  refine List.map_fst_zip ?_
  rw [Table.length_rows, Table.rowCount, h]

theorem length_rows {t : JsonTable} (h : t.Aligned) : t.rows.length = t.rowCount := by
  rw [← List.length_map (f := Prod.snd), map_snd_rows h, rowCount, Table.rowCount, h]

-- A list of what is read off the values is read off the rows.
theorem map_nodes {t : JsonTable} (h : t.Aligned) (f : Node → β) :
    t.nodes.map f = t.rows.map fun r => f r.2 := by
  rw [← map_snd_rows h, List.map_map]
  rfl

theorem rows_eq {t : JsonTable} (ht : t.Aligned) :
    t.rows = t.nodes.zipIdx.map fun e => (t.table.row e.2, e.1) := by
  refine List.ext_getElem ?_ fun i hi hi' => ?_
  · rw [length_rows ht, List.length_map, List.length_zipIdx]
    exact ht
  · simp [rows, Table.rows]

-- Apart from the column that is written, nothing changes.
theorem filter_put_self (column : Text) (value : α) (es : List (Text × α)) :
    ((Entries.put column value es).filter fun e => e.1 ≠ column) =
      es.filter fun e => e.1 ≠ column :=
  Entries.filter_put (p := fun name => name ≠ column) (by simp) value es

-- A column that is written gives each row its cell, and the values stay.
theorem shows_withColumn {t : JsonTable} (ht : t.Aligned) {key : Text} {type : ColumnType}
    {cells : List Datum} (hkey : Writable key) (hlength : cells.length = t.rowCount)
    (hfits : ∀ d ∈ cells, type.Fits d) :
    ∃ u, t.withColumn (.text key) type cells = .ok u ∧
      u.Shows (Entries.put key type t.table.schema)
        ((t.rows.zip cells).map fun e => (Entries.put key e.2 e.1.1, e.1.2)) := by
  refine ⟨_, Except.map_eq_ok.mpr ⟨_, Table.withColumn_eq_ok hkey hlength hfits, rfl⟩, ht, ?_, ?_⟩
  · exact Table.schema_put _ hkey.2
  · rw [rows, Table.rows_put hkey.2 hlength, rows]
    refine List.ext_getElem ?_ fun i hi hi' => ?_
    · simp only [List.length_zip, List.length_map]
      omega
    · simp

-- The same for cells that are read off the values.
theorem shows_withColumn_map {t : JsonTable} (ht : t.Aligned) {key : Text} {type : ColumnType}
    {f : Node → Datum} (hkey : Writable key) (hfits : ∀ v ∈ t.nodes, type.Fits (f v)) :
    ∃ u, t.withColumn (.text key) type (t.nodes.map f) = .ok u ∧
      u.Shows (Entries.put key type t.table.schema)
        (t.rows.map fun r => (Entries.put key (f r.2) r.1, r.2)) := by
  have hlength : (t.nodes.map f).length = t.rowCount := by
    rw [List.length_map]
    exact ht.symm
  have hcells : ∀ d ∈ t.nodes.map f, type.Fits d := by
    intro d hd
    obtain ⟨v, hv, rfl⟩ := List.mem_map.mp hd
    exact hfits v hv
  obtain ⟨u, hu, haligned, hschema, hrows⟩ := shows_withColumn ht hkey hlength hcells
  refine ⟨u, hu, haligned, hschema, hrows.trans ?_⟩
  have hzip : t.rows.zip (t.rows.map fun r => f r.2) = t.rows.map fun r => (r, f r.2) := by
    rw [← List.zip_map', List.map_id']
  rw [map_nodes ht, hzip, List.map_map]
  rfl

theorem kept_map (l : List α) (p : α → Bool) : kept l (l.map p) = l.filter p := by
  induction l with
  | nil => rfl
  | cons a l ih =>
      rw [kept] at ih
      cases h : p a <;> simp [kept, h, ih]

theorem shows_filterRows {t : JsonTable} (ht : t.Aligned) {mask : List Bool}
    (hmask : mask.length = t.rowCount) :
    ∃ u, t.filterRows mask = .ok u ∧ u.Shows t.table.schema (kept t.rows mask) := by
  have htable : t.table.filterRows mask = .ok (t.table.select (Table.marked mask)) :=
    if_pos hmask
  refine ⟨⟨_, kept t.nodes mask⟩, Except.bind_eq_ok.mpr ⟨_, htable, rfl⟩, ?_,
    Table.schema_select _ _, ?_⟩
  · have hdocuments := (zip_kept t.table.documents t.nodes mask ht).2
    rw [Aligned, Table.select, Table.map_getD_marked hmask.symm]
    exact hdocuments
  · have hlength : t.table.rows.length = t.nodes.length := by
      rw [Table.length_rows]
      exact ht
    rw [rows, Table.rows_select_marked hmask, rows]
    exact (zip_kept t.table.rows t.nodes mask hlength).1

-- The same for a mask that is read off the rows.
theorem shows_filterRows_map {t : JsonTable} (ht : t.Aligned) (f : Row → α) (p : α → Bool) :
    ∃ u, t.filterRows ((t.rows.map f).map p) = .ok u ∧
      u.Shows t.table.schema (t.rows.filter fun r => p (f r)) := by
  have hlength : ((t.rows.map f).map p).length = t.rowCount := by
    rw [List.length_map, List.length_map, length_rows ht]
  obtain ⟨u, hu, haligned, hschema, hrows⟩ := shows_filterRows ht hlength
  refine ⟨u, hu, haligned, hschema, ?_⟩
  rw [hrows, List.map_map, kept_map]
  rfl

theorem source_lt_rowCount {t : JsonTable} (ht : t.Aligned)
    (children : Node → List (Datum × Node)) :
    ∀ r ∈ (t.offspring children).map Offspring.source, r < t.table.rowCount := by
  intro r hr
  obtain ⟨o, ho, rfl⟩ := List.mem_map.mp hr
  obtain ⟨⟨v, i⟩, hv, ho⟩ := List.mem_flatMap.mp ho
  obtain ⟨c, -, rfl⟩ := List.mem_map.mp ho
  have hi := List.snd_lt_of_mem_zipIdx hv
  rw [Table.rowCount, ht]
  simpa using hi

-- A table made of rows that come from others shows each of them with the cells of its source.
theorem shows_ofOffspring {t : JsonTable} (ht : t.Aligned)
    (children : Node → List (Datum × Node)) :
    (t.ofOffspring (t.offspring children)).Shows t.table.schema
      ((t.offspring children).map fun o => (t.table.row o.source, o.node)) := by
  have hsources := source_lt_rowCount ht children
  refine ⟨by simp [Aligned, ofOffspring, Table.select], Table.schema_select _ _, ?_⟩
  rw [rows, ofOffspring, Table.rows_select hsources, List.map_map, List.zip_map']
  rfl

-- What is made of the rows to come, row by row.
theorem map_offspring {t : JsonTable} (ht : t.Aligned) (children : Node → List (Datum × Node))
    (f : List (Text × Datum) → Datum × Node → β) :
    (t.offspring children).map (fun o => f (t.table.row o.source) (o.cell, o.node)) =
      t.rows.flatMap fun r => (children r.2).map (f r.1) := by
  rw [offspring, rows_eq ht, List.map_flatMap, List.flatMap_map]
  simp only [List.map_map, Function.comp_def]

theorem checkNewColumn_of_writable {verb key : Text} (h : Writable key) :
    (checkNewColumn verb (.text key)).result = .ok () := by
  rw [checkNewColumn, columnName_of_writable h]
  rfl

-- Under a good name, gathering comes down to writing the column of the rows to come.
theorem result_gather {key : Text} (hkey : Writable key) (t : JsonTable) (verb : Text)
    (type : ColumnType) (children : Node → List (Datum × Node)) :
    (t.gather verb type (.text key) children).result =
      (t.ofOffspring (t.offspring children)).withColumn (.text key) type
        ((t.offspring children).map Offspring.cell) := by
  simp only [gather, Traced.result_bind, Traced.result_liftM, Traced.result_pure,
    checkNewColumn_of_writable hkey, Except.ok_bind]
  exact bind_pure _

theorem length_offspring (t : JsonTable) (children : Node → List (Datum × Node)) :
    ((t.offspring children).map Offspring.cell).length =
      (t.ofOffspring (t.offspring children)).rowCount := by
  simp [rowCount, ofOffspring]

theorem offspring_fits {type : ColumnType} {children : Node → List (Datum × Node)}
    (hfits : ∀ v, ∀ c ∈ children v, type.Fits c.1) (t : JsonTable) :
    ∀ d ∈ (t.offspring children).map Offspring.cell, type.Fits d := by
  intro d hd
  obtain ⟨o, ho, rfl⟩ := List.mem_map.mp hd
  obtain ⟨⟨v, i⟩, -, ho⟩ := List.mem_flatMap.mp ho
  obtain ⟨c, hc, rfl⟩ := List.mem_map.mp ho
  exact hfits v c hc

-- Each row is followed by those that come from it, with the cell of each in the new column.
theorem shows_gather {t : JsonTable} (ht : t.Aligned) {verb key : Text} {type : ColumnType}
    {children : Node → List (Datum × Node)} (hkey : Writable key)
    (hfits : ∀ v, ∀ c ∈ children v, type.Fits c.1) :
    ∃ u, (t.gather verb type (.text key) children).result = .ok u ∧
      u.Shows (Entries.put key type t.table.schema)
        (t.rows.flatMap fun r => (children r.2).map fun c => (Entries.put key c.1 r.1, c.2)) := by
  obtain ⟨haligned, hschema, hrows⟩ := shows_ofOffspring ht children
  obtain ⟨u, hu, hshows⟩ := shows_withColumn haligned hkey (length_offspring t children)
    (offspring_fits hfits t)
  refine ⟨u, (result_gather hkey ..).trans hu, hshows.aligned, hschema ▸ hshows.schema, ?_⟩
  rw [hshows.rows, hrows, List.zip_map', List.map_map]
  exact map_offspring ht children fun row c => (Entries.put key c.1 row, c.2)

-- The cells of the new column can be asked for.
theorem column_of_gather {t u : JsonTable} {verb key : Text} {type : ColumnType}
    {children : Node → List (Datum × Node)} (hu : u.Aligned)
    (h : (t.gather verb type (.text key) children).result = .ok u) :
    u.table.column (.text key) =
      .ok ⟨type, u.rows.map fun r => (r.1.lookup key).getD .none⟩ := by
  simp only [gather, Traced.result_bind_eq_ok] at h
  obtain ⟨_, _, written, hwritten, _, _, hresult⟩ := h
  obtain rfl := Except.ok.inj hresult
  obtain ⟨table, htable, rfl⟩ := Except.map_eq_ok.mp hwritten
  rw [Table.column_of_withColumn htable, ← map_fst_rows hu, List.map_map]
  rfl

theorem elements_fits (v : Node) :
    ∀ c ∈ Descent.elements.children v, ColumnType.integer.Fits c.1 := by
  intro c hc
  obtain ⟨_, -, rfl⟩ := List.mem_map.mp hc
  exact .inr rfl

theorem members_fits (v : Node) :
    ∀ c ∈ Descent.members.children v, ColumnType.string.Fits c.1 := by
  intro c hc
  obtain ⟨_, -, rfl⟩ := List.mem_map.mp hc
  exact .inr rfl

-- The rows that come from a row with an array: one for each element, with its position.
def elementRows (key : Text) (r : Row) : List Row :=
  match r.2.json with
  | .array xs =>
      (xs.zipIdx 1).map fun (x, j) => (Entries.put key (.ofNat j) r.1, r.2.below (.index j) x)
  | _ => []

-- The rows that come from a row with an object: one for each entry, with its key.
def memberRows (key : Text) (r : Row) : List Row :=
  match r.2.json with
  | .object es => es.map fun (k, x) => (Entries.put key (.text k) r.1, r.2.below (.key k) x)
  | _ => []

theorem elementRows_eq (key : Text) (r : Row) : elementRows key r =
    r.2.elements.map fun e => (Entries.put key (.ofNat e.1) r.1, e.2) := by
  obtain ⟨row, v⟩ := r
  cases hjson : v.json with
  | array xs =>
      have hpositions : xs.zipIdx 1 = xs.zipIdx.map fun e => (e.1, e.2 + 1) :=
        List.zipIdx_succ
      simp only [elementRows, hjson, hpositions, Node.elements, Json.elements, List.map_map]
      rfl
  | null | logical _ | number _ | string _ | object _ =>
      simp [elementRows, hjson, Node.elements, Json.elements]

theorem memberRows_eq (key : Text) (r : Row) : memberRows key r =
    r.2.members.map fun e => (Entries.put key (.text e.1) r.1, e.2) := by
  obtain ⟨row, v⟩ := r
  cases hjson : v.json with
  | object es =>
      simp only [memberRows, hjson, Node.members, Json.entries, List.map_map]
      rfl
  | null | logical _ | number _ | string _ | array _ =>
      simp [memberRows, hjson, Node.members, Json.entries]

theorem elementRows_eq_map (key : Text) (r : Row) : elementRows key r =
    (Descent.elements.children r.2).map fun c => (Entries.put key c.1 r.1, c.2) := by
  rw [elementRows_eq, Descent.children, List.map_map]
  rfl

theorem memberRows_eq_map (key : Text) (r : Row) : memberRows key r =
    (Descent.members.children r.2).map fun c => (Entries.put key c.1 r.1, c.2) := by
  rw [memberRows_eq, Descent.children, List.map_map]
  rfl

theorem shows_gatherArray {t : JsonTable} (ht : t.Aligned) {key : Text} (hkey : Writable key) :
    ∃ u, (t.gatherArray (.text key)).result = .ok u ∧
      u.Shows (Entries.put key .integer t.table.schema) (t.rows.flatMap (elementRows key)) := by
  rw [funext (elementRows_eq_map key)]
  exact shows_gather ht hkey elements_fits

theorem shows_gatherKeys {t : JsonTable} (ht : t.Aligned) {key : Text} (hkey : Writable key) :
    ∃ u, (t.gatherKeys (.text key)).result = .ok u ∧
      u.Shows (Entries.put key .string t.table.schema) (t.rows.flatMap (memberRows key)) := by
  rw [funext (memberRows_eq_map key)]
  exact shows_gather ht hkey members_fits

theorem mapM_keyText (keys : List Text) (all : List Datum) :
    (keys.map Datum.text).mapM (keyText all) = .ok keys := by
  rw [Except.mapM_eq_ok_iff, List.forall₂_map_left_iff, List.forall₂_same]
  exact fun k _ => rfl

theorem keyPath_text {keys : List Text} (h : keys ≠ []) :
    keyPath (keys.map .text) = .ok keys := by
  rw [keyPath, if_neg (by simpa using h)]
  exact mapM_keyText keys _

theorem result_enterObject {args : List Datum} {keys : List Text} (hkeys : keyPath args = .ok keys)
    (t : JsonTable) : (t.enterObject args).result =
      .ok (t.ofOffspring (t.offspring (Descent.walk keys).children)) := by
  simp only [enterObject, hkeys, Traced.result_bind_eq_ok]
  exact ⟨keys, rfl, (), rfl, rfl⟩

theorem shows_enterObject {t : JsonTable} (ht : t.Aligned) {args : List Datum} {keys : List Text}
    (hkeys : keyPath args = .ok keys) :
    ∃ u, (t.enterObject args).result = .ok u ∧ u.Shows t.table.schema
      (t.rows.filterMap fun r => (r.2.walk? (keys.map .key)).map (r.1, ·)) := by
  have hshows := shows_ofOffspring ht (Descent.walk keys).children
  refine ⟨_, result_enterObject hkeys t, hshows.aligned, hshows.schema, hshows.rows.trans ?_⟩
  rw [map_offspring ht (Descent.walk keys).children fun row c => (row, c.2),
    List.filterMap_eq_flatMap_toList]
  refine congrArg (t.rows.flatMap ·) (funext fun r => ?_)
  cases hwalk : r.2.walk? (keys.map .key) <;> simp [Descent.children, hwalk]

theorem kindsNamed_of_named {types : List Datum} {kinds : List Kind} (h : kinds ≠ [])
    (hnamed : types.map Kind.ofDatum? = kinds.map some) : kindsNamed types = .ok kinds := by
  have htypes : types ≠ [] := by
    rintro rfl
    exact h (List.map_eq_nil_iff.mp hnamed.symm)
  rw [kindsNamed, if_neg (by simpa using htypes), Except.mapM_eq_ok_iff]
  have hall : List.Forall₂ (· = ·) (types.map Kind.ofDatum?) (kinds.map some) := by
    rw [List.forall₂_eq_eq_eq]
    exact hnamed
  rw [List.forall₂_map_left_iff, List.forall₂_map_right_iff] at hall
  exact hall.imp fun d k hk => by rw [kindNamed, hk]

theorem shows_filterJsonTypes {t : JsonTable} (ht : t.Aligned) {types : List Datum}
    {kinds : List Kind} (hkinds : kindsNamed types = .ok kinds) :
    ∃ u, (t.filterJsonTypes types).result = .ok u ∧
      u.Shows t.table.schema (t.rows.filter fun r => kinds.contains r.2.kind) := by
  have hlength : (t.nodes.map fun v => kinds.contains v.kind).length = t.rowCount := by
    rw [List.length_map]
    exact ht.symm
  obtain ⟨u, hu, haligned, hschema, hrows⟩ := shows_filterRows ht hlength
  refine ⟨u, ?_, haligned, hschema, ?_⟩
  · simp only [filterJsonTypes, hkinds, Traced.result_bind_eq_ok]
    exact ⟨kinds, rfl, u, hu, (), rfl, rfl⟩
  · rw [hrows, map_nodes ht, kept_map]

-- Row by row: gathering gives the elements of an array or the entries of an object, entering goes
-- down the keys, and filtering looks at the kind. All other cells are those of the row that a row
-- comes from, and the columns stay, but for the one that is written.
theorem structural_rows {t : JsonTable} (ht : t.Aligned) :
    (∀ key, Writable key → ∃ u, (t.gatherArray (.text key)).result = .ok u ∧
      u.Shows (Entries.put key .integer t.table.schema) (t.rows.flatMap (elementRows key))) ∧
    (∀ key, Writable key → ∃ u, (t.gatherKeys (.text key)).result = .ok u ∧
      u.Shows (Entries.put key .string t.table.schema) (t.rows.flatMap (memberRows key))) ∧
    (∀ keys : List Text, keys ≠ [] → ∃ u, (t.enterObject (keys.map .text)).result = .ok u ∧
      u.Shows t.table.schema
        (t.rows.filterMap fun r => (r.2.walk? (keys.map .key)).map (r.1, ·))) ∧
    ∀ types kinds, kinds ≠ [] → types.map Kind.ofDatum? = kinds.map some →
      ∃ u, (t.filterJsonTypes types).result = .ok u ∧
        u.Shows t.table.schema (t.rows.filter fun r => kinds.contains r.2.kind) :=
  ⟨fun _ => shows_gatherArray ht, fun _ => shows_gatherKeys ht,
    fun _ hkeys => shows_enterObject ht (keyPath_text hkeys),
    fun _ _ hkinds hnamed => shows_filterJsonTypes ht (kindsNamed_of_named hkinds hnamed)⟩

-- An array and an object under a column that is written anew, and one that stays.
theorem structural_rows_mixed :
    ∃ t : JsonTable, t.Aligned ∧ Writable "key" ∧ [Text.ofString "k"] ≠ [] ∧
      [Datum.text "array", .kind .null].map Kind.ofDatum? = [.array, .null].map some ∧
      (∃ u, (t.gatherArray (.text "key")).result = .ok u ∧
        u.rows = [([(documentColumn, .int 1), ("key", .int 1), ("n", .int 7)],
            { json := .null, path := [.index 1] }),
          ([(documentColumn, .int 1), ("key", .int 2), ("n", .int 7)],
            { json := .logical true, path := [.index 2] })]) ∧
      (∃ u, (t.gatherKeys (.text "key")).result = .ok u ∧
        u.rows = [([(documentColumn, .int 2), ("key", .text "k"), ("n", .int 8)],
          { json := .null, path := [.key "k"] })]) ∧
      (∃ u, (t.enterObject [.text "k"]).result = .ok u ∧
        u.rows = [([(documentColumn, .int 2), ("key", .none), ("n", .int 8)],
          { json := .null, path := [.key "k"] })]) ∧
      ∃ u, (t.filterJsonTypes [.text "array", .kind .null]).result = .ok u ∧
        u.rows = [([(documentColumn, .int 1), ("key", .text "a"), ("n", .int 7)],
          { json := .array [.null, .logical true] })] := by
  let t : JsonTable :=
    ⟨⟨[1, 2], [("key", ⟨.string, [.text "a", .none]⟩), ("n", ⟨.integer, [.int 7, .int 8]⟩)]⟩,
      [{ json := .array [.null, .logical true] }, { json := .object [("k", .null)] }]⟩
  have ht : t.Aligned := rfl
  have hkey : Writable "key" := by decide
  have hkeys : [Text.ofString "k"] ≠ [] := List.cons_ne_nil _ _
  have hkinds : [Datum.text "array", .kind .null].map Kind.ofDatum? = [.array, .null].map some :=
    rfl
  obtain ⟨harray, hobject, henter, hfilter⟩ := structural_rows ht
  obtain ⟨u, hu, hurows⟩ := harray _ hkey
  obtain ⟨v, hv, hvrows⟩ := hobject _ hkey
  obtain ⟨w, hw, hwrows⟩ := henter _ hkeys
  obtain ⟨x, hx, hxrows⟩ := hfilter _ _ (List.cons_ne_nil _ _) hkinds
  exact ⟨t, ht, hkey, hkeys, hkinds, ⟨u, hu, hurows.rows⟩, ⟨v, hv, hvrows.rows⟩,
    ⟨w, hw, hwrows.rows⟩, x, hx, hxrows.rows⟩

end Unnest.JsonTable
