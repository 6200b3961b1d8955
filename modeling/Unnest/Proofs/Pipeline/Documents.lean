import Unnest.Proofs.JsonTable.Effect
import Unnest.Proofs.Pipeline.Basic
import Unnest.Proofs.Source

namespace Unnest

-- How a document is read does not depend on its number, if that can be written.
theorem Document.read_number {channel : Channel} {number : Nat} {source : Datum} {v : Node}
    (h : read channel number source = .ok v) {other : Nat} (hother : Spellable other) :
    read channel other source = .ok v := by
  unfold read at h ⊢
  split at h
  · exact h
  · obtain ⟨s, rfl⟩ := parse_text h
    obtain ⟨htext, json, hdecode, -, rfl⟩ := parse_eq_ok_iff.mp h
    exact parse_eq_ok_iff.mpr ⟨htext, json, hdecode, fun _ => hother, rfl⟩

namespace Source

theorem load_document {channel : Channel} {document : Datum} {v : Node}
    (h : Document.read channel 1 document = .ok v) :
    (load channel (.datum (.list [document])) .none).result = .ok (.ofDocuments [v]) := by
  simp only [load, Document.parseAll, Traced.result_bind_eq_ok]
  refine ⟨[v], ⟨[v], ?_, (), rfl, rfl⟩, rfl⟩
  rw [Traced.result_mapM, Except.mapM_eq_ok_iff]
  refine .cons ?_ .nil
  cases document <;> exact h

-- The documents of a list are read as each of them is by itself.
theorem load_list {channel : Channel} {documents : List Datum} {t : JsonTable}
    (h : (load channel (.datum (.list documents)) .none).result = .ok t) :
    ∃ nodes, t = .ofDocuments nodes ∧
      (documents.mapM fun document =>
        (load channel (.datum (.list [document])) .none).result) =
          .ok (nodes.map fun v => .ofDocuments [v]) := by
  simp only [load, Traced.result_bind_eq_ok] at h
  obtain ⟨nodes, hnodes, ht⟩ := h
  refine ⟨nodes, (Except.ok.inj ht).symm, ?_⟩
  have halone := (Document.parseAll_ok hnodes).imp fun e v hread =>
    load_document (Document.read_number hread (by decide))
  rw [Except.mapM_eq_ok_iff, List.forall₂_map_right_iff, ← List.zipIdx_map_fst 1 documents,
    List.forall₂_map_left_iff]
  exact halone

end Source

namespace JsonTable

-- The row of a document by itself.
def rootRow (v : Node) : Row :=
  ([(documentColumn, .ofNat 1)], v)

theorem rows_ofDocuments (nodes : List Node) :
    (ofDocuments nodes).rows = (nodes.zipIdx 1).map fun e => numbered e.2 (rootRow e.1) := by
  refine List.ext_getElem ?_ fun i hi hi' => ?_
  · simp [rows, ofDocuments]
  · have hi : i < nodes.length := by simpa using hi'
    simp [rows, Table.rows, Table.row, Table.columns, ofDocuments, Table.forDocuments,
      Table.documentCells, Column.cell, numbered, rootRow, Entries.put, hi]

-- The rows of several documents, of which each had been the only one.
def stacked (blocks : List (List Row)) : List Row :=
  (blocks.zipIdx 1).flatMap fun e => e.1.map (numbered e.2)

def belongsTo (number : Nat) (r : Row) : Bool :=
  match r.1.lookup documentColumn with
  | some (.int n) => n = number
  | _ => false

theorem belongsTo_numbered (number other : Nat) (r : Row) :
    belongsTo number (numbered other r) = decide (other = number) := by
  simp [belongsTo, numbered, Entries.lookup_put_self, Datum.ofNat]

theorem filter_numbered (number other : Nat) (rows : List Row) :
    (rows.map (numbered other)).filter (belongsTo number) =
      if other = number then rows.map (numbered number) else [] := by
  rw [List.filter_map]
  split
  · next h =>
    subst h
    simp [Function.comp_def, belongsTo_numbered]
  · next h => simp [Function.comp_def, belongsTo_numbered, h]

theorem filter_stacked_from (blocks : List (List Row)) (start number : Nat) :
    ((blocks.zipIdx start).flatMap fun e => e.1.map (numbered e.2)).filter (belongsTo number) =
      if start ≤ number then (blocks.getD (number - start) []).map (numbered number) else [] := by
  induction blocks generalizing start with
  | nil => simp
  | cons block blocks ih =>
      rw [List.zipIdx_cons, List.flatMap_cons, List.filter_append, ih, filter_numbered]
      rcases Nat.lt_trichotomy start number with hlt | rfl | hlt
      · have hnext : number - start = number - (start + 1) + 1 := by omega
        rw [if_neg hlt.ne, if_pos (by omega), if_pos hlt.le, hnext, List.getD_cons_succ,
          List.nil_append]
      · simp
      · rw [if_neg hlt.ne', if_neg (by omega), if_neg (by omega), List.nil_append]

-- The rows with the number of a document are just those of that document.
theorem filter_stacked (blocks : List (List Row)) (k : Nat) :
    (stacked blocks).filter (belongsTo (k + 1)) =
      (blocks.getD k []).map (numbered (k + 1)) := by
  rw [stacked, filter_stacked_from, if_pos (by omega), Nat.add_sub_cancel]

namespace Effect

theorem Turns.rows_documents {e : Effect} {nodes : List Node} {u : JsonTable}
    (h : e.Turns (ofDocuments nodes) u) :
    u.rows = stacked (nodes.map fun v => e.onRow (rootRow v)) := by
  rw [h.rows, rows_ofDocuments, stacked, List.zipIdx_map, List.flatMap_map, List.flatMap_map]
  refine congrArg (List.flatMap · _) (funext fun c => ?_)
  exact e.onRow_numbered c.2 List.mem_cons_self

theorem Turns.rows_document {e : Effect} {v : Node} {u : JsonTable}
    (h : e.Turns (ofDocuments [v]) u) : u.rows = e.onRow (rootRow v) :=
  h.rows.trans (List.append_nil _)

theorem lookup_onRow_rootRow {e : Effect} {v : Node} {r : Row} (hr : r ∈ e.onRow (rootRow v)) :
    r.1.lookup documentColumn = some (.ofNat 1) := by
  have hnumbered : e.onRow (rootRow v) = (e.onRow (rootRow v)).map (numbered 1) :=
    e.onRow_numbered 1 (r := rootRow v) List.mem_cons_self
  rw [hnumbered] at hr
  obtain ⟨s, -, rfl⟩ := List.mem_map.mp hr
  exact Entries.lookup_put_self ..

end Effect

end JsonTable

-- No stage looks at more than one row, unless it spreads all scalars.
theorem Stage.rowByRow_run {s : Stage} (h : s.verb ≠ Verb.spreadAll.name) :
    JsonTable.RowByRow fun t => (s.run t).result := by
  have happly : JsonTable.RowByRow fun t => (s.apply t).result := by
    unfold apply
    split
    · next verb hverb =>
      refine JsonTable.rowByRow_call ?_ _ _
      rintro rfl
      exact h (Verb.name_of_ofName? hverb).symm
    · exact JsonTable.rowByRow_error _
  have hdescribe : JsonTable.RowByRow fun t => s.describe.map fun _ => t := by
    cases s.describe with
    | error e => exact JsonTable.rowByRow_error e
    | ok shown => exact JsonTable.rowByRow_ok
  simp only [result_run]
  exact happly.bind hdescribe

namespace Pipeline

open JsonTable

theorem rowByRow_after {stages : Pipeline} (h : ∀ s ∈ stages, s.verb ≠ Verb.spreadAll.name) :
    RowByRow stages.after :=
  rowByRow_foldlM fun s hs => s.rowByRow_run (h s hs)

-- Documents do not meet in a run that spreads no scalars: what becomes of a list of them is what
-- becomes of each by itself, one below the other and with its number. All these tables have the
-- same columns, and the rows with the number of a document are those that it has by itself.
theorem documents_independent {stages : Pipeline} {documents : List Datum} {u : JsonTable}
    (hverbs : ∀ s ∈ stages, s.verb ≠ Verb.spreadAll.name)
    (hrun : (stages.run (.datum (.list documents))).result = .ok u) :
    u.Aligned ∧ ∃ parts : List JsonTable,
      (documents.mapM fun document => (stages.run (.datum (.list [document]))).result) =
        .ok parts ∧
      (∀ part ∈ parts, part.Aligned ∧ part.table.schema = u.table.schema ∧
        ∀ r ∈ part.rows, r.1.lookup documentColumn = some (.ofNat 1)) ∧
      u.rows = stacked (parts.map rows) ∧
      ∀ k part, parts[k]? = some part →
        u.rows.filter (belongsTo (k + 1)) = part.rows.map (numbered (k + 1)) := by
  rw [result_run] at hrun
  obtain ⟨t, hload, hafter⟩ := Except.bind_eq_ok.mp hrun
  obtain ⟨nodes, rfl, halone⟩ := Source.load_list hload
  obtain ⟨e, he⟩ := rowByRow_after hverbs _ _ (aligned_ofDocuments nodes) hafter
  obtain ⟨u', hu', hturns⟩ := he _ (aligned_ofDocuments nodes) (List.Subset.refl _)
  obtain rfl := Except.ok.inj (hafter.symm.trans hu')
  have hdocument (v : Node) (hv : v ∈ nodes) := he (ofDocuments [v]) (aligned_ofDocuments [v])
    (List.cons_subset.mpr ⟨hv, List.nil_subset _⟩)
  obtain ⟨parts, hparts⟩ := Except.exists_mapM_eq_ok fun v hv =>
    (hdocument v hv).imp fun w hw => hw.1
  have hturnsPart {v : Node} {part : JsonTable} (hv : v ∈ nodes)
      (h : stages.after (ofDocuments [v]) = .ok part) : e.Turns (ofDocuments [v]) part := by
    obtain ⟨w, hw, hturns⟩ := hdocument v hv
    obtain rfl := Except.ok.inj (h.symm.trans hw)
    exact hturns
  have hblocks : (nodes.map fun v => e.onRow (rootRow v)) = parts.map rows := by
    rw [← List.forall₂_eq_eq_eq, List.forall₂_map_left_iff, List.forall₂_map_right_iff]
    have hall := (List.forall₂_and_left _ _).mpr
      ⟨fun v (hv : v ∈ nodes) => hv, Except.mapM_eq_ok_iff.mp hparts⟩
    exact hall.imp fun v part h => (hturnsPart h.1 h.2).rows_document.symm
  have hrows : u.rows = stacked (parts.map rows) := hblocks ▸ hturns.rows_documents
  refine ⟨hturns.aligned, parts, ?_, ?_, hrows, fun k part hpart => ?_⟩
  · simp only [result_run]
    rw [Except.mapM_bind halone, List.mapM_map]
    exact hparts
  · intro part hpart
    obtain ⟨v, hv, hpart⟩ := Except.exists_of_mem_mapM hparts hpart
    have hturned := hturnsPart hv hpart
    refine ⟨hturned.aligned, hturned.schema.trans hturns.schema.symm, fun r hr => ?_⟩
    rw [hturned.rows_document] at hr
    exact Effect.lookup_onRow_rootRow hr
  · rw [hrows, filter_stacked, List.getD_eq_getElem?_getD, List.getElem?_map, hpart]
    rfl

-- An absent document gives no rows, and the number of the next one stays what it is.
theorem documents_independent_absent :
    ∃ (stages : Pipeline) (documents : List Datum) (u : JsonTable),
      (∀ s ∈ stages, s.verb ≠ Verb.spreadAll.name) ∧
      (stages.run (.datum (.list documents))).result = .ok u ∧ documents.length = 3 ∧
      u.rows.filter (belongsTo 3) =
        [([(documentColumn, .int 3), ("array.index", .int 1), ("logical", .bool true)],
          { json := .logical true, path := [.index 1] })] := by
  let stages : Pipeline := [{ verb := "gather_array" }, { verb := "append_values_logical" }]
  let documents : List Datum := [.text "[null]", .none, .text "[true]"]
  have hverbs : ∀ s ∈ stages, s.verb ≠ Verb.spreadAll.name := by decide
  have hrun : ∃ u, (stages.run (.datum (.list documents))).result = .ok u := ⟨_, rfl⟩
  obtain ⟨u, hu⟩ := hrun
  obtain ⟨-, parts, hparts, -, -, hdocument⟩ := documents_independent hverbs hu
  have hlast : ∃ first second, parts = [first, second,
      ⟨⟨[1], [("array.index", ⟨.integer, [.int 1]⟩), ("logical", ⟨.logical, [.bool true]⟩)]⟩,
        [{ json := .logical true, path := [.index 1] }]⟩] :=
    ⟨_, _, Except.ok.inj (hparts.symm.trans rfl)⟩
  obtain ⟨first, second, rfl⟩ := hlast
  exact ⟨stages, documents, u, hverbs, hu, rfl, hdocument 2 _ rfl⟩

end Pipeline

end Unnest
