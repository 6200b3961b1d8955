import Unnest.Proofs.JsonTable.Settled
import Unnest.Proofs.Table.Append

namespace Unnest.JsonTable

open Entries Validation

theorem Move.rectangular {t u : JsonTable} (h : Move t u) (ht : t.table.Rectangular) :
    u.table.Rectangular := by
  cases h with
  | write hwritten =>
      obtain ⟨table, htable, rfl⟩ := Except.map_eq_ok.mp hwritten
      exact ht.withColumn htable
  | keep hkept =>
      obtain ⟨table, htable, hu⟩ := Except.bind_eq_ok.mp hkept
      obtain rfl := Except.ok.inj hu
      obtain ⟨-, rfl⟩ := Table.filterRows_ok htable
      exact ht.select _
  | descend way => exact ht.select _

theorem Moves.rectangular {t u : JsonTable} (h : Moves t u) (ht : t.table.Rectangular) :
    u.table.Rectangular := by
  induction h with
  | refl => exact ht
  | tail _ hmove ih => exact hmove.rectangular ih

-- Tables that look alike are the same.
theorem eq_of_shows {t u : JsonTable} (ht : t.table.Rectangular) (hu : u.table.Rectangular)
    (halign : t.Aligned) (hshows : u.Shows t.table.schema t.rows) : t = u := by
  obtain ⟨halign', hschema, hrows⟩ := hshows
  have htable : t.table = u.table := by
    refine ht.ext hu hschema.symm ?_
    rw [← map_fst_rows halign, ← map_fst_rows halign', hrows]
  have hnodes : t.nodes = u.nodes := by
    rw [← map_snd_rows halign, ← map_snd_rows halign', hrows]
  cases t
  cases u
  simp_all

-- Rows with one value and the same cells by name.
def SameRow (r s : Row) : Prop :=
  Alike r.1 s.1 ∧ r.2 = s.2

-- One table shows the rows of two others, in the columns of the first.
structure Stacked (a b ab : JsonTable) : Prop where
  schema : ab.table.schema = a.table.schema
  alike : Alike a.table.schema b.table.schema
  rows : ∃ later, ab.rows = a.rows ++ later ∧ List.Forall₂ SameRow b.rows later

theorem forall₂_sameRow {rows later : List (List (Text × Datum))}
    (h : List.Forall₂ Alike rows later) (nodes : List Node) :
    List.Forall₂ SameRow (rows.zip nodes) (later.zip nodes) := by
  induction h generalizing nodes with
  | nil => exact .nil
  | cons hrow _ ih =>
      cases nodes with
      | nil => exact .nil
      | cons v nodes => exact .cons ⟨hrow, rfl⟩ (ih nodes)

variable {a b ab u w x : JsonTable}

theorem append_ok (h : a.append b = .ok ab) :
    a.table.append b.table = .ok ab.table ∧ ab.nodes = a.nodes ++ b.nodes := by
  obtain ⟨table, htable, hab⟩ := Except.bind_eq_ok.mp h
  obtain rfl := Except.ok.inj hab
  exact ⟨htable, rfl⟩

theorem Aligned.append (ha : a.Aligned) (hb : b.Aligned) (h : a.append b = .ok ab) :
    ab.Aligned := by
  obtain ⟨htable, hnodes⟩ := append_ok h
  rw [Aligned, Table.documents_append htable, hnodes, List.length_append, List.length_append, ha,
    hb]

theorem Legible.append (ha : a.Legible) (hb : b.Legible) (h : a.append b = .ok ab) :
    ab.Legible := by
  refine ⟨ha.aligned.append hb.aligned h, fun v hv => ?_⟩
  rw [(append_ok h).2] at hv
  exact (List.mem_append.mp hv).elim (ha.spellable v) (hb.spellable v)

theorem stacked_of_append (ha : a.table.Rectangular) (halign : a.Aligned)
    (h : a.append b = .ok ab) : Stacked a b ab := by
  obtain ⟨htable, hnodes⟩ := append_ok h
  obtain ⟨hschema, hstack⟩ := ha.append_eq_ok_iff.mp htable
  obtain ⟨later, hrows, hlater⟩ := ha.rows_stack hschema
  refine ⟨?_, hschema, later.zip b.nodes, ?_, forall₂_sameRow hlater b.nodes⟩
  · rw [hstack, ha.schema_stack]
  · have hlength : a.table.rows.length = a.nodes.length := by
      rw [Table.length_rows]
      exact halign
    rw [rows, hstack, hrows, hnodes, List.zip_append hlength, rows]

theorem keys_of_mem_rows {t : JsonTable} {r : Row} (h : r ∈ t.rows) :
    r.1.map Prod.fst = t.table.names := by
  obtain ⟨i, -, hi⟩ := List.mem_map.mp (List.of_mem_zip h).1
  rw [← hi, Table.keys_row]

theorem SameRow.eq {r s : Row} {names : List Text} (h : SameRow r s) (hnames : names.Nodup)
    (hr : r.1.map Prod.fst = names) (hs : s.1.map Prod.fst = names) : r = s :=
  Prod.ext (eq_of_keys_of_lookup (hr ▸ hnames) (hr.trans hs.symm) h.1) h.2

-- The names of the columns leave one way to put the rows of a second table below those of a first.
theorem Stacked.unique (h : Stacked a b ab) (hx : Stacked a b x) (hab : ab.table.Rectangular)
    (hrect : x.table.Rectangular) (halign : ab.Aligned) (halign' : x.Aligned) : ab = x := by
  obtain ⟨later, hrows, hlater⟩ := h.rows
  obtain ⟨others, hrows', hothers⟩ := hx.rows
  have hschema : x.table.schema = ab.table.schema := hx.schema.trans h.schema.symm
  have hnames : x.table.names = ab.table.names := by
    rw [← Table.keys_schema, hschema, Table.keys_schema]
  have hsame : later = others := by
    refine List.ext_getElem (hlater.length_eq.symm.trans hothers.length_eq) fun i hi hi' => ?_
    have hb : i < b.rows.length := hlater.length_eq ▸ hi
    obtain ⟨hcells, hvalue⟩ := hlater.get hb hi
    obtain ⟨hcells', hvalue'⟩ := hothers.get hb hi'
    have hfirst : later[i] ∈ ab.rows := hrows ▸ List.mem_append_right _ (List.getElem_mem hi)
    have hsecond : others[i] ∈ x.rows := hrows' ▸ List.mem_append_right _ (List.getElem_mem hi')
    refine SameRow.eq ⟨fun key => ?_, hvalue.symm.trans hvalue'⟩ hab.names_nodup
      (keys_of_mem_rows hfirst) ((keys_of_mem_rows hsecond).trans hnames)
    exact (hcells key).symm.trans (hcells' key)
  exact eq_of_shows hab hrect halign ⟨halign', hschema, by rw [hrows', hrows, hsame]⟩

-- An effect on both tables is the effect on the one that shows the rows of both.
theorem Stacked.turns {e : Effect} (h : Stacked a b ab) (ha : e.Turns a u) (hb : e.Turns b w)
    (hab : e.Turns ab x) : Stacked u w x := by
  obtain ⟨later, hrows, hlater⟩ := h.rows
  refine ⟨?_, ?_, later.flatMap e.onRow, ?_, ?_⟩
  · rw [hab.schema, ha.schema, h.schema]
  · rw [ha.schema, hb.schema]
    exact h.alike.putAll _
  · rw [hab.rows, ha.rows, hrows, List.flatMap_append]
  · rw [hb.rows]
    refine List.rel_flatMap hlater fun r s ⟨hcells, hvalue⟩ => ?_
    rw [Effect.onRow, Effect.onRow, hvalue, List.forall₂_map_left_iff, List.forall₂_map_right_iff,
      List.forall₂_same]
    exact fun c _ => ⟨hcells.putAll c.1, rfl⟩

theorem Stacked.append (h : Stacked u w x) (hu : u.table.Rectangular) (hw : w.table.Rectangular)
    (hx : x.table.Rectangular) (halign : u.Aligned) (halign' : w.Aligned) (haligned : x.Aligned) :
    u.append w = .ok x := by
  have htable := hu.append_eq_ok_iff.mpr ⟨h.alike, rfl⟩
  have happend : u.append w = .ok ⟨u.table.stack w.table, u.nodes ++ w.nodes⟩ :=
    Except.bind_eq_ok.mpr ⟨_, htable, rfl⟩
  have hstacked := stacked_of_append hu halign happend
  rw [happend, hstacked.unique h (hu.append hw htable) hx (halign.append halign' happend) haligned]

end Unnest.JsonTable
