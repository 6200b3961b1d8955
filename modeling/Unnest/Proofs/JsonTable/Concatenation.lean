import Unnest.Proofs.JsonTable.Append

namespace Unnest

open Entries

theorem Entries.Alike.symm {κ : Type u} {α : Type v} [BEq κ] {es fs : List (κ × α)}
    (h : Alike es fs) : Alike fs es :=
  fun key => (h key).symm

theorem Entries.Alike.trans {κ : Type u} {α : Type v} [BEq κ] {es fs gs : List (κ × α)}
    (h : Alike es fs) (h' : Alike fs gs) : Alike es gs :=
  fun key => (h key).trans (h' key)

namespace Table

-- Tables that cannot be put together are refused for their columns.
theorem append_eq_error {t u : Table} {e : Failure} (h : t.append u = .error e) :
    ∃ r : Rejection, e = .rejected r ∧ r.type = .columnType := by
  unfold append at h
  simp only at h
  split at h
  · rcases Except.bind_eq_error.mp h with hcolumns | ⟨others, -, hothers⟩
    · obtain ⟨entry, -, hentry⟩ := Except.exists_of_mapM_eq_error hcolumns
      split at hentry
      · cases hentry
      · obtain rfl := Except.error.inj hentry
        exact ⟨_, rfl, rfl⟩
    · cases hothers
  · obtain rfl := Except.error.inj h
    exact ⟨_, rfl, rfl⟩

-- Of three tables that have the same columns, it does not matter which two are put together first.
theorem Rectangular.stack_assoc {t u : Table} (ht : t.Rectangular)
    (hschema : Alike t.schema u.schema) (v : Table) :
    (t.stack u).stack v = t.stack (u.stack v) := by
  have hothers : ∀ e ∈ t.others, ∃ d, u.others.lookup e.1 = some d := by
    intro e he
    have hfound := (lookup_eq_some_iff_mem ht.names_nodup).mpr (List.mem_cons_of_mem _ he)
    have htype := hschema e.1
    rw [lookup_schema, lookup_schema, hfound, Option.map_some, eq_comm,
      Option.map_eq_some_iff, lookup_columns_of_ne (ht.ne_of_mem_others he)] at htype
    obtain ⟨d, hd, -⟩ := htype
    exact ⟨d, hd⟩
  have hstacked (key : Text) : (u.stack v).others.lookup key =
      (u.others.lookup key).map (·.stack (v.others.lookup key)) :=
    lookup_map (fun name (c : Column) => c.stack (v.others.lookup name)) u.others key
  have hcolumns : ((t.stack u).stack v).others = (t.stack (u.stack v)).others := by
    refine List.map_map.trans (List.map_congr_left fun e he => congrArg (Prod.mk e.1) ?_)
    obtain ⟨d, hd⟩ := hothers e he
    show (e.2.stack _).stack _ = e.2.stack ((u.stack v).others.lookup e.1)
    rw [hstacked, hd]
    cases v.others.lookup e.1 <;> simp [Column.stack]
  exact congrArg₂ Table.mk (List.append_assoc ..) hcolumns

end Table

namespace JsonTable

theorem kept_append {l m : List α} {mask other : List Bool} (h : l.length = mask.length) :
    kept (l ++ m) (mask ++ other) = kept l mask ++ kept m other := by
  rw [kept, List.zip_append h, List.filterMap_append]
  rfl

theorem kept_all (l : List α) : kept l (List.replicate l.length true) = l := by
  rw [← List.map_const', kept_map, List.filter_true]

theorem kept_nothing (l : List α) : kept l (List.replicate l.length false) = [] := by
  rw [← List.map_const', kept_map, List.filter_false]

-- A table that has columns with names of their own, and for each row a cell in every column and a
-- value.
structure Regular (t : JsonTable) : Prop where
  columns : t.table.Rectangular
  aligned : t.Aligned

-- Nothing comes of putting tables together whose columns do not go together.
def RefusedForColumns (outcome : Except Failure JsonTable) : Prop :=
  ∃ r : Rejection, outcome = .error (.rejected r) ∧ r.type = .columnType

variable {a b c ab t u w : JsonTable}

theorem Regular.append (ha : a.Regular) (hb : b.Regular) (h : a.append b = .ok ab) :
    ab.Regular :=
  ⟨ha.columns.append hb.columns (append_ok h).1, ha.aligned.append hb.aligned h⟩

theorem Regular.append_eq_ok_iff (ha : a.Regular) :
    a.append b = .ok ab ↔
      Alike a.table.schema b.table.schema ∧
        ab = ⟨a.table.stack b.table, a.nodes ++ b.nodes⟩ := by
  constructor
  · intro h
    obtain ⟨htable, hnodes⟩ := append_ok h
    obtain ⟨hschema, hstack⟩ := ha.columns.append_eq_ok_iff.mp htable
    refine ⟨hschema, ?_⟩
    rw [← hstack, ← hnodes]
  · rintro ⟨hschema, rfl⟩
    exact Except.bind_eq_ok.mpr ⟨_, ha.columns.append_eq_ok_iff.mpr ⟨hschema, rfl⟩, rfl⟩

theorem Regular.refused (ha : a.Regular) (h : ¬Alike a.table.schema b.table.schema) :
    RefusedForColumns (a.append b) := by
  cases hab : a.append b with
  | ok ab => exact absurd (ha.append_eq_ok_iff.mp hab).1 h
  | error e =>
      rcases Except.bind_eq_error.mp hab with htable | ⟨table, -, hnodes⟩
      · obtain ⟨r, rfl, htype⟩ := Table.append_eq_error htable
        exact ⟨r, rfl, htype⟩
      · cases hnodes

theorem RefusedForColumns.bind {outcome : Except Failure JsonTable}
    (h : RefusedForColumns outcome) (next : JsonTable → Except Failure JsonTable) :
    RefusedForColumns (outcome >>= next) := by
  obtain ⟨r, rfl, htype⟩ := h
  exact ⟨r, rfl, htype⟩

-- Three tables are put together from the left as they are from the right.
theorem Regular.append_assoc (ha : a.Regular) (hb : b.Regular) (c : JsonTable) :
    (∃ abc, (a.append b >>= (·.append c)) = .ok abc ∧ (b.append c >>= a.append) = .ok abc) ∨
      RefusedForColumns (a.append b >>= (·.append c)) ∧
        RefusedForColumns (b.append c >>= a.append) := by
  by_cases hab : Alike a.table.schema b.table.schema
  · have hleft := ha.append_eq_ok_iff.mpr ⟨hab, rfl⟩
    have hregular := ha.append hb hleft
    have hschema := ha.columns.schema_stack b.table
    rw [hleft, Except.ok_bind]
    by_cases hbc : Alike b.table.schema c.table.schema
    · have hright := hb.append_eq_ok_iff.mpr ⟨hbc, rfl⟩
      refine .inl ⟨_, hregular.append_eq_ok_iff.mpr ⟨?_, rfl⟩, ?_⟩
      · rw [hschema]
        exact hab.trans hbc
      · rw [hright, Except.ok_bind, ha.append_eq_ok_iff]
        refine ⟨?_, ?_⟩
        · rw [hb.columns.schema_stack c.table]
          exact hab
        · rw [ha.columns.stack_assoc hab, List.append_assoc]
    · refine .inr ⟨hregular.refused fun hac => hbc ?_, (hb.refused hbc).bind _⟩
      rw [hschema] at hac
      exact hab.symm.trans hac
  · refine .inr ⟨(ha.refused hab).bind _, ?_⟩
    cases hbc : b.append c with
    | error e =>
        have hrefused := hb.refused fun hschema => by
          cases hbc.symm.trans (hb.append_eq_ok_iff.mpr ⟨hschema, rfl⟩)
        rw [← hbc]
        exact hrefused.bind _
    | ok bc =>
        obtain ⟨-, rfl⟩ := hb.append_eq_ok_iff.mp hbc
        refine ha.refused fun hschema => hab ?_
        rwa [hb.columns.schema_stack c.table] at hschema

theorem Regular.filterRows (ht : t.Regular) {mask : List Bool} (hmask : mask.length = t.rowCount) :
    ∃ u, t.filterRows mask = .ok u ∧ u.Regular ∧ u.Shows t.table.schema (kept t.rows mask) := by
  obtain ⟨u, hu, hshows⟩ := shows_filterRows ht.aligned hmask
  exact ⟨u, hu, ⟨Move.rectangular (.keep hu) ht.columns, hshows.aligned⟩, hshows⟩

theorem Regular.shows (ht : t.Regular) : t.Shows t.table.schema t.rows :=
  ⟨ht.aligned, rfl, rfl⟩

-- A table is put together from two that share out its rows.
theorem Regular.append_of_rows (ht : t.Regular) (hu : u.Regular) (hw : w.Regular)
    {first rest : List Row} (hfirst : u.Shows t.table.schema first)
    (hrest : w.Shows t.table.schema rest) (hrows : first ++ rest = t.rows) :
    u.append w = .ok t := by
  have hstacked : Stacked u w t := by
    refine ⟨hfirst.schema.symm, ?_, rest, ?_, ?_⟩
    · rw [hfirst.schema, hrest.schema]
      exact fun key => rfl
    · rw [hfirst.rows, hrows]
    · rw [hrest.rows, List.forall₂_same]
      exact fun r _ => ⟨fun key => rfl, rfl⟩
  exact hstacked.append hu.columns hw.columns ht.columns hu.aligned hw.aligned ht.aligned

-- Without its rows a table adds nothing, on whichever side.
theorem Regular.append_empty (ht : t.Regular) :
    ∃ empty, t.filterRows (List.replicate t.rowCount false) = .ok empty ∧
      empty.append t = .ok t ∧ t.append empty = .ok t := by
  obtain ⟨empty, hempty, hregular, hshows⟩ := ht.filterRows List.length_replicate
  rw [← length_rows ht.aligned, kept_nothing] at hshows
  exact ⟨empty, hempty, ht.append_of_rows hregular ht hshows ht.shows rfl,
    ht.append_of_rows ht hregular ht.shows hshows (List.append_nil _)⟩

-- A table may be cut between any two rows and put together again.
theorem Regular.append_cut (ht : t.Regular) {k : Nat} (hk : k ≤ t.rowCount) :
    ∃ first rest,
      t.filterRows (List.replicate k true ++ List.replicate (t.rowCount - k) false) = .ok first ∧
      t.filterRows (List.replicate k false ++ List.replicate (t.rowCount - k) true) = .ok rest ∧
      first.append rest = .ok t := by
  have hlength (before after : Bool) :
      (List.replicate k before ++ List.replicate (t.rowCount - k) after).length = t.rowCount := by
    rw [List.length_append, List.length_replicate, List.length_replicate]
    omega
  have htake : (t.rows.take k).length = k := by
    rw [List.length_take, length_rows ht.aligned]
    omega
  have hdrop : (t.rows.drop k).length = t.rowCount - k := by
    rw [List.length_drop, length_rows ht.aligned]
  have hkept (before after : Bool) :
      kept t.rows (List.replicate k before ++ List.replicate (t.rowCount - k) after) =
        kept (t.rows.take k) (List.replicate (t.rows.take k).length before) ++
          kept (t.rows.drop k) (List.replicate (t.rows.drop k).length after) := by
    rw [htake, hdrop, ← kept_append (by rw [htake, List.length_replicate]), List.take_append_drop]
  obtain ⟨first, hfirst, hregular, hshows⟩ := ht.filterRows (hlength true false)
  obtain ⟨rest, hrest, hregular', hshows'⟩ := ht.filterRows (hlength false true)
  rw [hkept, kept_all, kept_nothing, List.append_nil] at hshows
  rw [hkept, kept_nothing, kept_all, List.nil_append] at hshows'
  exact ⟨first, rest, hfirst, hrest,
    ht.append_of_rows hregular hregular' hshows hshows' (List.take_append_drop k t.rows)⟩

-- Two tables can be put together exactly if they have columns of the same names and types. Then
-- the rows of the second follow those of the first, in the columns of the first.
theorem append_concatenates (ha : a.Regular) (hb : b.Regular) (c : JsonTable) :
    ((∃ ab, a.append b = .ok ab) ↔ Alike a.table.schema b.table.schema) ∧
    (¬Alike a.table.schema b.table.schema → RefusedForColumns (a.append b)) ∧
    (∀ ab, a.append b = .ok ab → Stacked a b ab) ∧
    ((∃ abc, (a.append b >>= (·.append c)) = .ok abc ∧ (b.append c >>= a.append) = .ok abc) ∨
      RefusedForColumns (a.append b >>= (·.append c)) ∧
        RefusedForColumns (b.append c >>= a.append)) ∧
    (∃ empty, a.filterRows (List.replicate a.rowCount false) = .ok empty ∧
      empty.append a = .ok a ∧ a.append empty = .ok a) ∧
    ∀ k ≤ a.rowCount, ∃ first rest,
      a.filterRows (List.replicate k true ++ List.replicate (a.rowCount - k) false) = .ok first ∧
      a.filterRows (List.replicate k false ++ List.replicate (a.rowCount - k) true) = .ok rest ∧
      first.append rest = .ok a := by
  refine ⟨⟨?_, ?_⟩, ha.refused, ?_, ha.append_assoc hb c, ha.append_empty, ?_⟩
  · rintro ⟨ab, hab⟩
    exact (ha.append_eq_ok_iff.mp hab).1
  · intro hschema
    exact ⟨_, ha.append_eq_ok_iff.mpr ⟨hschema, rfl⟩⟩
  · intro ab hab
    exact stacked_of_append ha.columns ha.aligned hab
  · intro k hk
    exact ha.append_cut hk

-- Three tables whose columns stand in two orders, the first of them cut between its two rows.
theorem append_concatenates_other_order :
    ∃ a b c ab abc : JsonTable, a.Regular ∧ b.Regular ∧
      a.table.names = ["document.id", "x", "n"] ∧ b.table.names = ["document.id", "n", "x"] ∧
      a.append b = .ok ab ∧ Stacked a b ab ∧ (a.append b >>= (·.append c)) = .ok abc ∧
      (b.append c >>= a.append) = .ok abc ∧
      abc.table = ⟨[1, 2, 3, 4], [("x", ⟨.string, [.text "p", .none, .text "q", .text "r"]⟩),
        ("n", ⟨.integer, [.int 7, .int 8, .none, .int 9]⟩)]⟩ ∧
      (∃ empty, a.filterRows [false, false] = .ok empty ∧ empty.append a = .ok a ∧
        a.append empty = .ok a) ∧
      ∃ first rest, a.filterRows [true, false] = .ok first ∧
        a.filterRows [false, true] = .ok rest ∧ first.append rest = .ok a := by
  let a : JsonTable :=
    ⟨⟨[1, 2], [("x", ⟨.string, [.text "p", .none]⟩), ("n", ⟨.integer, [.int 7, .int 8]⟩)]⟩,
      [.null, .null]⟩
  let b : JsonTable :=
    ⟨⟨[3], [("n", ⟨.integer, [.none]⟩), ("x", ⟨.string, [.text "q"]⟩)]⟩, [.null]⟩
  let c : JsonTable :=
    ⟨⟨[4], [("n", ⟨.integer, [.int 9]⟩), ("x", ⟨.string, [.text "r"]⟩)]⟩, [.null]⟩
  have ha : a.Regular :=
    ⟨⟨by decide, by simp [a, Table.columns, Table.documentCells, Table.rowCount]⟩, rfl⟩
  have hb : b.Regular :=
    ⟨⟨by decide, by simp [b, Table.columns, Table.documentCells, Table.rowCount]⟩, rfl⟩
  obtain ⟨-, -, hstacked, hassoc, hempty, hcut⟩ := append_concatenates ha hb c
  obtain ⟨ab, hab⟩ : ∃ ab, a.append b = .ok ab := ⟨_, rfl⟩
  rcases hassoc with ⟨abc, hleft, hright⟩ | ⟨⟨r, hrefused, -⟩, -⟩
  · refine ⟨a, b, c, ab, abc, ha, hb, rfl, rfl, hab, hstacked ab hab, hleft, hright, ?_, hempty,
      hcut 1 (by decide)⟩
    obtain rfl := Except.ok.inj hleft
    rfl
  · cases hrefused

end JsonTable

end Unnest
