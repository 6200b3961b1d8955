import Unnest.Proofs.JsonTable.Rows

namespace Unnest

theorem Table.take_ofNat {t : Table} {rows : List Nat} (h : ∀ i ∈ rows, i < t.rowCount) :
    t.take (rows.map Int.ofNat) = .ok (t.select rows) := by
  have hpositions : (rows.map Int.ofNat).mapM (position? t.rowCount) = some rows := by
    induction rows with
    | nil => rfl
    | cons i rows ih =>
        obtain ⟨hi, hrows⟩ := List.forall_mem_cons.mp h
        have hposition : position? t.rowCount (Int.ofNat i) = some i := by
          have hcount : (i : Int) < t.rowCount := Int.ofNat_lt.mpr hi
          simp [position?, hcount, show ¬(i : Int) < 0 by omega]
        rw [List.map_cons, List.mapM_cons, hposition, ih hrows]
        rfl
  rw [take, hpositions]

namespace JsonTable

theorem ofParts_of_length {table : Table} {nodes : List Node}
    (h : table.rowCount = nodes.length) :
    ofParts table (nodes.map .node) = .ok ⟨table, nodes⟩ := by
  have hstray : ((nodes.map Attachment.node).zipIdx 1).find?
      (fun e => e.1.node?.isNone) = none := by
    refine List.find?_eq_none.mpr fun e he => ?_
    obtain ⟨v, -, hv⟩ := List.mem_map.mp (List.fst_mem_of_mem_zipIdx he)
    simp [← hv, Attachment.node?]
  have hnodes : (nodes.map Attachment.node).filterMap Attachment.node? = nodes := by
    rw [List.filterMap_map]
    exact List.filterMap_some
  rw [ofParts, if_pos (by rw [List.length_map, h]), hstray, hnodes]

theorem ofParts_nodes {table : Table} {nodes : List Node} {t : JsonTable}
    (h : ofParts table (nodes.map .node) = .ok t) : t = ⟨table, nodes⟩ ∧ t.Aligned := by
  by_cases hcount : table.rowCount = nodes.length
  · rw [ofParts_of_length hcount] at h
    obtain rfl := Except.ok.inj h
    exact ⟨rfl, hcount⟩
  · rw [ofParts, if_neg (by rwa [List.length_map])] at h
    cases h

-- The parts need no check where there is a value for each row of every table that comes about.
theorem bind_ofParts {x : Except Failure Table} {nodes : List Node}
    (h : ∀ table, x = .ok table → table.rowCount = nodes.length) :
    (x >>= fun table => ofParts table (nodes.map .node)) = x.map (⟨·, nodes⟩) := by
  cases x with
  | error e => rfl
  | ok table => exact ofParts_of_length (h table rfl)

theorem ofDocuments_eq_ofParts (nodes : List Node) :
    ofParts (.forDocuments nodes.length) (nodes.map .node) = .ok (ofDocuments nodes) :=
  ofParts_of_length (by simp)

section

variable {t u : JsonTable} (ht : t.Aligned)

include ht

theorem withColumn_eq_ofParts (name : Datum) (type : ColumnType) (cells : List Datum) :
    t.withColumn name type cells =
      t.table.withColumn name type cells >>= fun table => ofParts table (t.nodes.map .node) := by
  refine (bind_ofParts fun table htable => ?_).symm
  obtain ⟨_, -, -, -, -, -, rfl⟩ := Table.withColumn_ok htable
  exact ht

theorem filterRows_eq_ofParts (mask : List Bool) :
    t.filterRows mask =
      t.table.filterRows mask >>= fun table => ofParts table ((kept t.nodes mask).map .node) := by
  rw [bind_ofParts fun table htable => ?_]
  · rfl
  · have hu : t.filterRows mask = .ok ⟨table, kept t.nodes mask⟩ :=
      Except.bind_eq_ok.mpr ⟨table, htable, rfl⟩
    exact (filterRows_places ht hu).1

theorem append_eq_ofParts (hu : u.Aligned) :
    t.append u =
      t.table.append u.table >>= fun table => ofParts table ((t.nodes ++ u.nodes).map .node) := by
  rw [bind_ofParts fun table htable => ?_]
  · rfl
  · rw [Table.rowCount, Table.documents_append htable, List.length_append, List.length_append,
      ht, hu]

-- Rows that come from others are taken from them by position, and each gets its value.
theorem restack_offspring (children : Node → List (Datum × Node)) :
    t.restack ((t.offspring children).map fun o => .ofNat o.source)
        ((t.offspring children).map fun o => .node o.node) =
      .ok (t.ofOffspring (t.offspring children)) := by
  have htake := Table.take_ofNat (source_lt_rowCount ht children)
  have hcount : (t.table.select ((t.offspring children).map Offspring.source)).rowCount =
      ((t.offspring children).map Offspring.node).length := by
    simp
  have hparts := ofParts_of_length hcount
  rw [List.map_map] at htake hparts
  exact Except.bind_eq_ok.mpr ⟨_, htake, hparts⟩

-- Gathering rows is restacking them and writing the new column.
theorem gather_eq_restack (verb : Text) (type : ColumnType) (column : Datum)
    (children : Node → List (Datum × Node)) :
    t.gather verb type column children = (do
      checkNewColumn verb column
      let rows := t.offspring children
      let stacked ← liftM (t.restack (rows.map fun o => .ofNat o.source)
        (rows.map fun o => .node o.node))
      let result ← liftM (stacked.withColumn column type (rows.map Offspring.cell))
      noteRows verb t rows
      return result) := by
  simp only [gather, restack_offspring ht]
  rfl

-- Entering objects is restacking the rows that have the keys.
theorem enterObject_eq_restack (keys : List Datum) :
    t.enterObject keys = (do
      let path ← liftM (keyPath keys)
      let rows := t.offspring (Descent.walk path).children
      let result ← liftM (t.restack (rows.map fun o => .ofNat o.source)
        (rows.map fun o => .node o.node))
      noteRows (.concat ["enter_object(", .join "." path, ")"]) t rows
      return result) := by
  simp only [enterObject, restack_offspring ht]
  rfl

end

end JsonTable

end Unnest
