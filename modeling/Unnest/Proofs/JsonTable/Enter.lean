import Unnest.Proofs.Datum.Inverse
import Unnest.Proofs.JsonTable.Idempotence

namespace Unnest

-- What is found at positions among the positions of a list is found at those they stand for.
theorem map_getD_map {first second : List Nat} (h : ∀ i ∈ second, i < first.length) (f : Nat → α)
    (a : α) : (second.map fun i => (first.map f).getD i a) =
      (second.map fun i => first.getD i 0).map f := by
  rw [List.map_map]
  refine List.map_congr_left fun i hi => ?_
  simp [h i hi]

namespace Table

theorem select_select (t : Table) {first second : List Nat} (h : ∀ i ∈ second, i < first.length) :
    (t.select first).select second = t.select (second.map fun i => first.getD i 0) := by
  have hcolumn (c : Column) :
      (c.select first).select second = c.select (second.map fun i => first.getD i 0) :=
    congrArg (Column.mk c.type) (map_getD_map h c.cell .none)
  simp only [select, map_getD_map h, List.map_map, Function.comp_def, hcolumn]

-- A position that is not in the table gives an empty cell.
theorem Proper.select {t : Table} (h : t.Proper) (rows : List Nat) : (t.select rows).Proper := by
  refine List.forall_mem_map.mpr fun e he => List.forall_mem_map.mpr fun i _ => ?_
  rw [Column.cell, List.getD_eq_getElem?_getD]
  cases hcell : e.2.cells[i]? with
  | none => exact .scalar rfl
  | some d => exact h e he d (List.mem_of_getElem? hcell)

end Table

namespace JsonTable

open Validation

-- Rows that come from rows to be made come from the sources of these.
theorem ofOffspring_ofOffspring (t : JsonTable) {rows later : List Offspring}
    (h : ∀ o ∈ later, o.source < rows.length) : (t.ofOffspring rows).ofOffspring later =
      t.ofOffspring (later.map fun o =>
        { o with source := (rows.map Offspring.source).getD o.source 0 }) := by
  have hrange : ∀ i ∈ later.map Offspring.source, i < (rows.map Offspring.source).length := by
    rw [List.length_map]
    exact List.forall_mem_map.mpr h
  rw [ofOffspring, ofOffspring, Table.select_select _ hrange, ofOffspring]
  simp only [List.map_map, Function.comp_def]

-- What comes from a value in two steps.
def andThen (first second : Node → List (Datum × Node)) (v : Node) : List (Datum × Node) :=
  (first v).flatMap fun c => second c.2

theorem offspring_andThen (t : JsonTable) (first second : Node → List (Datum × Node)) :
    t.offspring (andThen first second) = (t.offspring first).flatMap fun o =>
      (second o.node).map fun c => ⟨o.source, c.1, c.2⟩ := by
  simp only [offspring, andThen, List.flatMap_assoc, List.flatMap_map, List.map_flatMap]

theorem offspring_ofOffspring (t : JsonTable) (rows : List Offspring)
    (children : Node → List (Datum × Node)) :
    (t.ofOffspring rows).offspring children = rows.zipIdx.flatMap fun e =>
      (children e.1.node).map fun c => ⟨e.2, c.1, c.2⟩ := by
  rw [offspring, ofOffspring, List.zipIdx_map, List.flatMap_map]
  rfl

-- Two steps down are made in one, whichever of the rows each of them drops.
theorem descend_descend (t : JsonTable) (first second : Node → List (Datum × Node)) :
    (t.ofOffspring (t.offspring first)).ofOffspring
        ((t.ofOffspring (t.offspring first)).offspring second) =
      t.ofOffspring (t.offspring (andThen first second)) := by
  rw [offspring_ofOffspring, offspring_andThen]
  generalize t.offspring first = rows
  -- a later row has the position of the earlier one that it comes from
  have hsource {e : Offspring × Nat} (he : e ∈ rows.zipIdx) : rows[e.2]? = some e.1 :=
    List.mem_zipIdx_iff_getElem?.mp he
  rw [ofOffspring_ofOffspring]
  · refine congrArg t.ofOffspring ?_
    conv_rhs => rw [← List.zipIdx_map_fst 0 rows, List.flatMap_map]
    rw [List.map_flatMap]
    refine List.flatMap_congr fun e he => ?_
    simp [hsource he]
  · intro o ho
    obtain ⟨e, he, ho⟩ := List.mem_flatMap.mp ho
    obtain ⟨c, -, rfl⟩ := List.mem_map.mp ho
    exact (List.getElem?_eq_some_iff.mp (hsource he)).1

theorem andThen_walk (ks ls : List Text) :
    andThen (Descent.walk ks).children (Descent.walk ls).children =
      (Descent.walk (ks ++ ls)).children := by
  funext v
  rw [andThen, Descent.children, Descent.children, List.map_append, Node.walk?_append]
  cases v.walk? (ks.map .key) with
  | none => rfl
  | some w => simp [Descent.children]

-- Of the rows that come from an object, one has the key if there is one under it.
theorem filter_memberRows (column key : Text) {r : Row} (h : r.2.json.WellFormed) :
    (memberRows column r).filter (fun s => (s.1.lookup column).getD .none == .text key) =
      ((r.2.child? (.key key)).map fun w => (Entries.put column (.text key) r.1, w)).toList := by
  obtain ⟨row, v⟩ := r
  have hcell (k : Text) : (Datum.text k == .text key) = (k == key) := rfl
  have hfound : v.child? (.key key) = (v.json.entries.lookup key).map (v.below (.key key)) := by
    rw [← Entries.lookup_reverse h.keys_nodup]
    rfl
  rw [memberRows_eq, Node.members, List.map_map, List.filter_map, hfound]
  simp only [Function.comp_def, Entries.lookup_put_self, Option.getD_some, hcell]
  rw [Entries.filter_key h.keys_nodup]
  cases v.json.entries.lookup key <;> rfl

-- A row without its cell in a column.
def apartFrom (column : Text) (r : Row) : Row :=
  (r.1.filter fun e => e.1 ≠ column, r.2)

theorem map_apartFrom_filter_memberRows (column key : Text) {r : Row} (h : r.2.json.WellFormed) :
    ((memberRows column r).filter fun s => (s.1.lookup column).getD .none == .text key).map
        (apartFrom column) =
      (((r.2.walk? [.key key]).map (r.1, ·)).map (apartFrom column)).toList := by
  have hwalk : r.2.walk? [.key key] = r.2.child? (.key key) := Option.bind_fun_some _
  rw [filter_memberRows column key h, hwalk]
  cases r.2.child? (.key key) with
  | none => rfl
  | some w => exact congrArg (fun cells => [(cells, w)]) (filter_put_self column _ _)

-- Two tables with the same rows, values and columns, but for one column.
structure AgreeApart (column : Text) (t u : JsonTable) : Prop where
  rowCount : t.rowCount = u.rowCount
  nodes : t.nodes = u.nodes
  schema : (t.table.schema.filter fun e => e.1 ≠ column) =
    u.table.schema.filter fun e => e.1 ≠ column
  rows : t.rows.map (apartFrom column) = u.rows.map (apartFrom column)

theorem AgreeApart.of_rows {column : Text} {t u : JsonTable} (ht : t.Aligned) (hu : u.Aligned)
    (hschema : (t.table.schema.filter fun e => e.1 ≠ column) =
      u.table.schema.filter fun e => e.1 ≠ column)
    (hrows : t.rows.map (apartFrom column) = u.rows.map (apartFrom column)) :
    AgreeApart column t u := by
  refine ⟨?_, ?_, hschema, hrows⟩
  · have hlength := congrArg List.length hrows
    rwa [List.length_map, List.length_map, length_rows ht, length_rows hu] at hlength
  · have hnodes := congrArg (List.map Prod.snd) hrows
    rw [List.map_map, List.map_map] at hnodes
    rw [← map_snd_rows ht, ← map_snd_rows hu]
    exact hnodes

-- Gathers the entries, and keeps those with a key.
def gatherKey (column : Text) (key : Text) (t : JsonTable) : Except Failure JsonTable := do
  let u ← (t.gatherKeys (.text column)).result
  let keys ← u.table.column (.text column)
  u.filterRows (keys.cells.map (· == .text key))

theorem shows_gatherKey {t : JsonTable} (ht : t.Aligned) {column : Text} (hcolumn : Writable column)
    (key : Text) : ∃ u, t.gatherKey column key = .ok u ∧
      u.Shows (Entries.put column .string t.table.schema) (t.rows.flatMap fun r =>
        (memberRows column r).filter fun s => (s.1.lookup column).getD .none == .text key) := by
  obtain ⟨u, hu, haligned, hschema, hrows⟩ := shows_gatherKeys ht hcolumn
  obtain ⟨x, hx, hxaligned, hxschema, hxrows⟩ := shows_filterRows_map haligned
    (fun r => (r.1.lookup column).getD .none) (· == Datum.text key)
  refine ⟨x, ?_, hxaligned, hxschema.trans hschema, ?_⟩
  · exact Except.bind_eq_ok.mpr ⟨u, hu,
      Except.bind_eq_ok.mpr ⟨_, column_of_gather haligned hu, hx⟩⟩
  · rw [hxrows, hrows, List.filter_flatMap]

-- Entering a key, or gathering all entries and keeping those with the key, comes to the same but
-- for the column of the keys. Keys may be entered one after the other or all at once.
theorem entering_keys {t : JsonTable} (ht : t.Aligned) :
    ((∀ v ∈ t.nodes, v.json.Built) → ∀ key column, Writable column → ∃ u x,
      (t.enterObject [.text key]).result = .ok u ∧ t.gatherKey column key = .ok x ∧ u.Aligned ∧
      AgreeApart column x u) ∧
    ∀ ks ls : List Text, ks ≠ [] → ls ≠ [] → ∃ u w,
      (t.enterObject ((ks ++ ls).map .text)).result = .ok u ∧
      (t.enterObject (ks.map .text)).result = .ok w ∧
      (w.enterObject (ls.map .text)).result = .ok u ∧
      (t.table.Proper → u.equals u = .ok true) := by
  constructor
  · intro hbuilt key column hcolumn
    obtain ⟨u, hu, haligned, hschema, hrows⟩ :=
      shows_enterObject ht (keyPath_text (List.cons_ne_nil key []))
    obtain ⟨x, hx, hxaligned, hxschema, hxrows⟩ := shows_gatherKey ht hcolumn key
    refine ⟨u, x, hu, hx, haligned, .of_rows hxaligned haligned ?_ ?_⟩
    · rw [hxschema, hschema]
      exact filter_put_self column _ _
    · rw [hxrows, hrows, List.map_flatMap, List.map_filterMap, List.filterMap_eq_flatMap_toList]
      refine List.flatMap_congr fun r hr => ?_
      have hnode : r.2 ∈ t.nodes := map_snd_rows ht ▸ List.mem_map_of_mem hr
      exact map_apartFrom_filter_memberRows column key (Json.built_iff.mp (hbuilt r.2 hnode))
  · intro ks ls hks hls
    have hboth : ks ++ ls ≠ [] := List.append_ne_nil_of_left_ne_nil hks ls
    refine ⟨_, _, result_enterObject (keyPath_text hboth) t,
      result_enterObject (keyPath_text hks) t, ?_, ?_⟩
    · rw [result_enterObject (keyPath_text hls), descend_descend, andThen_walk]
    · exact fun hproper => (shows_ofOffspring ht _).aligned.equals_self (hproper.select _)

-- The key of one document leads to an object, that of another to a number, and the last has none.
-- The column of the keys is one that the table has already.
theorem entering_keys_dropped :
    ∃ t : JsonTable, t.Aligned ∧ t.rowCount = 3 ∧ (∀ v ∈ t.nodes, v.json.Built) ∧
      t.table.Proper ∧ Writable "n" ∧ t.table.schema = [(documentColumn, .integer), ("n", .string)] ∧
      (∃ u x, (t.enterObject [.text "a"]).result = .ok u ∧ t.gatherKey "n" "a" = .ok x ∧
        u.rowCount = 2 ∧ AgreeApart "n" x u) ∧
      [Text.ofString "a"] ≠ [] ∧ [Text.ofString "b"] ≠ [] ∧
      ∃ u w, (t.enterObject [.text "a", .text "b"]).result = .ok u ∧
        (t.enterObject [.text "a"]).result = .ok w ∧ (w.enterObject [.text "b"]).result = .ok u ∧
        u.equals u = .ok true ∧ w.rowCount = 2 ∧ u.rowCount = 1 := by
  let inner : Json := .object [("b", .string "s")]
  let v : Node := { json := .object [("z", .null), ("a", inner)] }
  let w : Node := { json := .object [("a", .logical true)] }
  let t : JsonTable := ⟨⟨[1, 2, 3], [("n", ⟨.string, [.text "p", .none, .text "q"]⟩)]⟩,
    [v, w, .null]⟩
  have ht : t.Aligned := rfl
  have hproper : t.table.Proper := List.forall_mem_singleton.mpr
    (List.forall_mem_cons.mpr ⟨.scalar rfl, List.forall_mem_cons.mpr
      ⟨.scalar rfl, List.forall_mem_singleton.mpr (.scalar rfl)⟩⟩)
  have hinner : inner.WellFormed :=
    .object (by decide) (List.forall_mem_singleton.mpr (.scalar rfl rfl))
  have hv : v.json.WellFormed := .object (by decide)
    (List.forall_mem_cons.mpr ⟨.scalar rfl rfl, List.forall_mem_singleton.mpr hinner⟩)
  have hw : w.json.WellFormed :=
    .object (by decide) (List.forall_mem_singleton.mpr (.scalar rfl rfl))
  have hbuilt : ∀ v ∈ t.nodes, v.json.Built :=
    List.forall_mem_cons.mpr ⟨Json.built_iff.mpr hv, List.forall_mem_cons.mpr
      ⟨Json.built_iff.mpr hw, List.forall_mem_singleton.mpr (Json.built_iff.mpr (.scalar rfl rfl))⟩⟩
  have hn : Writable "n" := by decide
  obtain ⟨hfiltered, hchained⟩ := entering_keys ht
  obtain ⟨u, x, hu, hx, -, hagree⟩ := hfiltered hbuilt "a" "n" hn
  have hcount : u.rowCount = 2 := by
    obtain rfl := Except.ok.inj hu
    rfl
  obtain ⟨u', w', hu', hw', hagain, hself⟩ :=
    hchained ["a"] ["b"] (List.cons_ne_nil _ _) (List.cons_ne_nil _ _)
  have hcounts : w'.rowCount = 2 ∧ u'.rowCount = 1 := by
    obtain rfl := Except.ok.inj hu'
    obtain rfl := Except.ok.inj hw'
    exact ⟨rfl, rfl⟩
  exact ⟨t, ht, rfl, hbuilt, hproper, hn, rfl, ⟨u, x, hu, hx, hcount, hagree⟩,
    List.cons_ne_nil _ _, List.cons_ne_nil _ _, u', w', hu', hw', hagain, hself hproper, hcounts⟩

end JsonTable

end Unnest
