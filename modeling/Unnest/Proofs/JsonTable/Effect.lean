import Unnest.Proofs.JsonTable.Rows

namespace Unnest.JsonTable

-- What a run does to a table, as it is seen from a value: the columns that it writes, and for each
-- row that comes of the value, what is written to the row and the value that the row gets. The
-- numbers of the documents are never written.
structure Effect where
  columns : List (Text × ColumnType)
  rows : Node → List (List (Text × Datum) × Node)
  spares : ∀ v, ∀ c ∈ rows v, documentColumn ∉ c.1.map Prod.fst

-- A row as one of another document.
def numbered (number : Nat) (r : Row) : Row :=
  (Entries.put documentColumn (.ofNat number) r.1, r.2)

namespace Effect

def onRow (e : Effect) (r : Row) : List Row :=
  (e.rows r.2).map fun c => (Entries.putAll c.1 r.1, c.2)

-- A table becomes another one row by row.
def Turns (e : Effect) (t u : JsonTable) : Prop :=
  u.Shows (Entries.putAll e.columns t.table.schema) (t.rows.flatMap e.onRow)

-- An effect on what is left by another one.
def andThen (e f : Effect) : Effect where
  columns := e.columns ++ f.columns
  rows v := (e.rows v).flatMap fun c => (f.rows c.2).map fun d => (c.1 ++ d.1, d.2)
  spares v c hc := by
    obtain ⟨d, hd, hc⟩ := List.mem_flatMap.mp hc
    obtain ⟨d', hd', rfl⟩ := List.mem_map.mp hc
    rw [List.map_append, List.mem_append, not_or]
    exact ⟨e.spares v d hd, f.spares d.2 d' hd'⟩

theorem onRow_andThen (e f : Effect) (r : Row) :
    (e.andThen f).onRow r = (e.onRow r).flatMap f.onRow := by
  simp only [onRow, andThen, List.map_flatMap, List.flatMap_map, List.map_map, Function.comp_def,
    Entries.putAll_append]

theorem Turns.andThen {e f : Effect} {t u w : JsonTable} (he : e.Turns t u) (hf : f.Turns u w) :
    (e.andThen f).Turns t w := by
  refine ⟨hf.aligned, ?_, ?_⟩
  · rw [hf.schema, he.schema]
    exact (Entries.putAll_append ..).symm
  · rw [hf.rows, he.rows, List.flatMap_assoc]
    exact congrArg (t.rows.flatMap ·) (funext fun r => (onRow_andThen e f r).symm)

theorem Turns.nodes {e : Effect} {t u : JsonTable} (h : e.Turns t u) (ht : t.Aligned) :
    u.nodes = t.nodes.flatMap fun v => (e.rows v).map Prod.snd := by
  rw [← map_snd_rows h.aligned, h.rows, ← map_snd_rows ht, List.map_flatMap, List.flatMap_map]
  simp only [onRow, List.map_map, Function.comp_def]

-- The number of a document may be put into a row before or after an effect.
theorem onRow_numbered (e : Effect) (number : Nat) {r : Row}
    (hr : documentColumn ∈ r.1.map Prod.fst) :
    e.onRow (numbered number r) = (e.onRow r).map (numbered number) := by
  rw [onRow, onRow, List.map_map]
  refine List.map_congr_left fun c hc => ?_
  exact Prod.ext (Entries.putAll_put (e.spares r.2 c hc) hr) rfl

-- The row goes on with each value that comes of its own, and the cell of that value is written.
def write (children : Node → List (Datum × Node)) (key : Text) (type : ColumnType)
    (hkey : key ≠ documentColumn) : Effect where
  columns := [(key, type)]
  rows v := (children v).map fun c => ([(key, c.1)], c.2)
  spares v c hc := by
    obtain ⟨d, -, rfl⟩ := List.mem_map.mp hc
    exact fun hdocument => hkey (List.mem_singleton.mp hdocument).symm

-- The row goes on with a value that is looked up, if it is there, and nothing is written.
def move (f : Node → Option Node) : Effect where
  columns := []
  rows v := ((f v).map ([], ·)).toList
  spares v c hc := by
    obtain ⟨w, -, rfl⟩ := Option.map_eq_some_iff.mp (Option.mem_toList.mp hc)
    exact List.not_mem_nil

theorem flatMap_onRow_move (f : Node → Option Node) (rows : List Row) :
    rows.flatMap (move f).onRow = rows.filterMap fun r => (f r.2).map (r.1, ·) := by
  rw [List.filterMap_eq_flatMap_toList]
  refine congrArg (rows.flatMap ·) (funext fun r => ?_)
  cases hf : f r.2 <;> simp [onRow, move, hf, Entries.putAll]

end Effect

-- Where a run succeeds, it has an effect that does not depend on the table as a whole: any other
-- table with none but the values of this one is turned in the same way.
def RowByRow (run : JsonTable → Except Failure JsonTable) : Prop :=
  ∀ t u, t.Aligned → run t = .ok u → ∃ e : Effect,
    ∀ part : JsonTable, part.Aligned → part.nodes ⊆ t.nodes →
      ∃ w, run part = .ok w ∧ e.Turns part w

theorem rowByRow_error (e : Failure) : RowByRow fun _ => .error e := by
  intro t u _ h
  cases h

theorem rowByRow_ok : RowByRow .ok := by
  intro t u _ _
  refine ⟨.move some, fun part hpart _ => ⟨part, rfl, hpart, rfl, ?_⟩⟩
  simp [Effect.flatMap_onRow_move]

theorem RowByRow.bind {run later : JsonTable → Except Failure JsonTable} (hrun : RowByRow run)
    (hlater : RowByRow later) : RowByRow fun t => run t >>= later := by
  intro t w ht h
  obtain ⟨u, hu, hw⟩ := Except.bind_eq_ok.mp h
  obtain ⟨e, he⟩ := hrun t u ht hu
  obtain ⟨u', hu', hturns⟩ := he t ht (List.Subset.refl _)
  obtain rfl := Except.ok.inj (hu.symm.trans hu')
  obtain ⟨f, hf⟩ := hlater u w hturns.aligned hw
  refine ⟨e.andThen f, fun part hpart hnodes => ?_⟩
  obtain ⟨x, hx, hpartTurns⟩ := he part hpart hnodes
  have hsubset : x.nodes ⊆ u.nodes := by
    rw [hpartTurns.nodes hpart, hturns.nodes ht]
    intro v hv
    obtain ⟨source, hsource, hv⟩ := List.mem_flatMap.mp hv
    exact List.mem_flatMap.mpr ⟨source, hnodes hsource, hv⟩
  obtain ⟨y, hy, hlaterTurns⟩ := hf x hpartTurns.aligned hsubset
  exact ⟨y, Except.bind_eq_ok.mpr ⟨x, hx, hy⟩, hpartTurns.andThen hlaterTurns⟩

theorem rowByRow_foldlM {step : JsonTable → α → Except Failure JsonTable} {l : List α}
    (h : ∀ a ∈ l, RowByRow (step · a)) : RowByRow (l.foldlM step) := by
  induction l with
  | nil => exact rowByRow_ok
  | cons a l ih =>
      obtain ⟨ha, hl⟩ := List.forall_mem_cons.mp h
      exact ha.bind (ih hl)

-- A column of cells that are read off the values.
theorem rowByRow_withColumn (column : Datum) (type : ColumnType) (f : Node → Datum) :
    RowByRow fun t => t.withColumn column type (t.nodes.map f) := by
  intro t u _ h
  obtain ⟨table, htable, -⟩ := Except.map_eq_ok.mp h
  obtain ⟨key, rfl, hnil, hdocument, -, hfits, -⟩ := Table.withColumn_ok htable
  refine ⟨.write (fun v => [(f v, v)]) key type hdocument, fun part hpart hnodes => ?_⟩
  have hpartFits : ∀ v ∈ part.nodes, type.Fits (f v) := fun v hv =>
    hfits _ (List.mem_map_of_mem (hnodes hv))
  obtain ⟨w, hw, haligned, hschema, hrows⟩ :=
    shows_withColumn_map hpart ⟨hnil, hdocument⟩ hpartFits
  refine ⟨w, hw, haligned, hschema, hrows.trans ?_⟩
  rw [List.map_eq_flatMap]
  rfl

theorem rowByRow_gather {verb : Text} {column : Datum} {type : ColumnType} (way : Descent)
    (hfits : ∀ v, ∀ c ∈ way.children v, type.Fits c.1) :
    RowByRow fun t => (t.gather verb type column way.children).result := by
  intro t u _ h
  simp only [gather, Traced.result_bind_eq_ok] at h
  obtain ⟨_, _, written, hwritten, _⟩ := h
  obtain ⟨table, htable, -⟩ := Except.map_eq_ok.mp hwritten
  obtain ⟨key, rfl, hnil, hdocument, -⟩ := Table.withColumn_ok htable
  refine ⟨.write way.children key type hdocument, fun part hpart _ => ?_⟩
  obtain ⟨w, hw, haligned, hschema, hrows⟩ := shows_gather hpart ⟨hnil, hdocument⟩ hfits
  refine ⟨w, hw, haligned, hschema, hrows.trans ?_⟩
  refine congrArg (part.rows.flatMap ·) (funext fun r => ?_)
  simp only [Effect.onRow, Effect.write, List.map_map]
  rfl

theorem rowByRow_enterObject (keys : List Datum) :
    RowByRow fun t => (t.enterObject keys).result := by
  intro t u _ h
  simp only [enterObject, Traced.result_bind_eq_ok] at h
  obtain ⟨path, hpath, -⟩ := h
  refine ⟨.move (·.walk? (path.map .key)), fun part hpart _ => ?_⟩
  obtain ⟨w, hw, haligned, hschema, hrows⟩ := shows_enterObject hpart hpath
  refine ⟨w, hw, haligned, hschema, hrows.trans ?_⟩
  rw [Effect.flatMap_onRow_move]

theorem rowByRow_filterJsonTypes (types : List Datum) :
    RowByRow fun t => (t.filterJsonTypes types).result := by
  intro t u _ h
  simp only [filterJsonTypes, Traced.result_bind_eq_ok] at h
  obtain ⟨kinds, hkinds, -⟩ := h
  refine ⟨.move (Option.guard fun v => kinds.contains v.kind), fun part hpart _ => ?_⟩
  obtain ⟨w, hw, haligned, hschema, hrows⟩ := shows_filterJsonTypes hpart hkinds
  refine ⟨w, hw, haligned, hschema, hrows.trans ?_⟩
  rw [Effect.flatMap_onRow_move, ← List.filterMap_eq_filter]
  refine List.filterMap_congr fun r _ => ?_
  simp only [Option.guard]
  split <;> rfl

-- All columns are read off the values at the start, which stay as they are.
theorem foldlM_withColumn {fields : List α} {name : α → Datum} {type : α → ColumnType}
    {cell : α → Node → Datum} (nodes : List Node) {t : JsonTable} (ht : t.nodes = nodes) :
    fields.foldlM (fun u a => u.withColumn (name a) (type a) (nodes.map (cell a))) t =
      fields.foldlM (fun u a => u.withColumn (name a) (type a) (u.nodes.map (cell a))) t := by
  induction fields generalizing t with
  | nil => rfl
  | cons a fields ih =>
      rw [List.foldlM_cons, List.foldlM_cons, ht]
      cases hu : t.withColumn (name a) (type a) (nodes.map (cell a)) with
      | error e => rfl
      | ok u => exact ih ((withColumn_places hu).2.trans ht)

theorem result_spreadValues {fields : List (Text × Datum)} {descriptors : List (Text × Descriptor)}
    (h : fieldDescriptors fields = .ok descriptors) (t : JsonTable) :
    (t.spreadValues fields).result = descriptors.foldlM (fun u a =>
      u.withColumn (.text a.1) a.2.kind.columnType
        (u.nodes.map fun v => (a.2.resolve v).getD .none)) t := by
  rw [← foldlM_withColumn t.nodes rfl]
  simp only [spreadValues, h, Traced.result_bind, Traced.result_liftM, Except.ok_bind,
    Traced.result_foldlM, Traced.result_note, List.map_map]
  rfl

theorem result_spreadValues_error {fields : List (Text × Datum)} {e : Failure}
    (h : fieldDescriptors fields = .error e) (t : JsonTable) :
    (t.spreadValues fields).result = .error e := by
  simp only [spreadValues, h]
  rfl

theorem rowByRow_spreadValues (fields : List (Text × Datum)) :
    RowByRow fun t => (t.spreadValues fields).result := by
  cases hdescriptors : fieldDescriptors fields with
  | error e =>
      rw [funext (result_spreadValues_error hdescriptors)]
      exact rowByRow_error e
  | ok descriptors =>
      rw [funext (result_spreadValues hdescriptors)]
      exact rowByRow_foldlM fun a _ => rowByRow_withColumn _ _ _

-- The cell for a value, as far as there is one.
def scalarCell (kind : ScalarKind) (force : Datum) (v : Node) : Datum :=
  (cellOf kind force v.json).toOption.getD .none

theorem scalarCell_of_ok {kind : ScalarKind} {force : Datum} {v : Node} {d : Datum}
    (h : cellOf kind force v.json = .ok d) : scalarCell kind force v = d := by
  rw [scalarCell, h]
  rfl

theorem mapM_cellOf {kind : ScalarKind} {force : Datum} {nodes : List Node}
    (h : ∀ v ∈ nodes, cellOf kind force v.json = .ok (scalarCell kind force v)) :
    (nodes.mapM fun v => cellOf kind force v.json) = .ok (nodes.map (scalarCell kind force)) := by
  rw [Except.mapM_eq_ok_iff, List.forall₂_map_right_iff, List.forall₂_same]
  exact h

theorem rowByRow_appendValues (kind : ScalarKind) (column force : Datum) :
    RowByRow fun t => t.appendValues kind column force := by
  intro t u ht h
  obtain ⟨cells, hcells, hwritten⟩ := Except.bind_eq_ok.mp h
  have hboth : List.Forall₂ (fun v d => cellOf kind force v.json = .ok (scalarCell kind force v) ∧
      cellOf kind force v.json = .ok d) t.nodes cells :=
    (Except.mapM_eq_ok_iff.mp hcells).imp fun v d hd => ⟨by rw [scalarCell_of_ok hd, hd], hd⟩
  have hdefined := ((List.forall₂_and_left _ _).mp hboth).1
  obtain rfl := Except.ok.inj (hcells.symm.trans (mapM_cellOf hdefined))
  obtain ⟨e, he⟩ := rowByRow_withColumn column kind.columnType _ t u ht hwritten
  refine ⟨e, fun part hpart hnodes => ?_⟩
  obtain ⟨w, hw, hturns⟩ := he part hpart hnodes
  have hcells := mapM_cellOf fun v hv => hdefined v (hnodes hv)
  exact ⟨w, Except.bind_eq_ok.mpr ⟨_, hcells, hw⟩, hturns⟩

-- All verbs but one look at a row alone, and so do the columns that they write.
theorem rowByRow_apply {verb : Verb} (h : verb ≠ .spreadAll) (args : List Datum)
    (named : List (Text × Datum)) : RowByRow fun t => (verb.apply args named t).result := by
  unfold Verb.apply
  split
  · exact rowByRow_gather .elements elements_fits
  · exact rowByRow_gather .members members_fits
  · exact rowByRow_gather .members members_fits
  · exact rowByRow_enterObject _
  · exact rowByRow_filterJsonTypes _
  · exact rowByRow_spreadValues _
  · exact absurd rfl h
  · exact rowByRow_appendValues _ _ _
  · exact rowByRow_withColumn _ _ _
  · exact rowByRow_withColumn _ _ _
  · exact rowByRow_withColumn _ _ _
  · exact rowByRow_error .mismatch

theorem rowByRow_call {verb : Verb} (h : verb ≠ .spreadAll) (form : Form) (arguments : Arguments) :
    RowByRow fun t => (verb.call form arguments t).result := by
  unfold Verb.call
  simp only [Traced.result_bind, Traced.result_liftM]
  cases verb.receive form arguments with
  | error e => exact rowByRow_error e
  | ok bound => exact rowByRow_apply h _ _

end Unnest.JsonTable
