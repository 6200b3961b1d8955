import Unnest.Proofs.Source
import Unnest.Proofs.Table.Frame

namespace Unnest

namespace JsonTable

-- Besides what is to be said of its table, each of its rows has a value.
structure Sound (t : JsonTable) : Prop where
  table : t.table.Sound
  nodes : t.nodes.length = t.rowCount

theorem Sound.aligned {t : JsonTable} (h : t.Sound) : t.Aligned :=
  h.nodes.symm

theorem sound_ofDocuments (nodes : List Node) : (ofDocuments nodes).Sound := by
  refine ⟨Table.sound_forDocuments nodes.length, ?_⟩
  rw [rowCount, ofDocuments, Table.rowCount_forDocuments]
  rfl

theorem sound_ofParts {table : Table} {values : List Attachment} {t : JsonTable}
    (htable : table.Sound) (h : ofParts table values = .ok t) : t.Sound := by
  unfold ofParts at h
  split at h
  · next hcount =>
    split at h
    · cases h
    · next hnodes =>
      obtain rfl := Except.ok.inj h
      have hall : ∀ value ∈ values, value.node?.isSome = true := by
        intro value hvalue
        obtain ⟨i, hi, rfl⟩ := List.getElem_of_mem hvalue
        have hmem : (values[i], 1 + i) ∈ values.zipIdx 1 :=
          List.mk_add_mem_zipIdx_iff_getElem?.mpr (List.getElem?_eq_getElem hi)
        have hnode := List.find?_eq_none.mp hnodes _ hmem
        rw [Bool.not_eq_true, Option.isNone_eq_false_iff] at hnode
        exact hnode
      refine ⟨htable, ?_⟩
      have hlength := List.filterMap_length_eq_length.mpr hall
      exact hlength.trans hcount.symm
  · cases h

theorem Sound.restack {t u : JsonTable} (h : t.Sound) {positions : List Int}
    {values : List Attachment} (hu : t.restack positions values = .ok u) : u.Sound := by
  obtain ⟨table, htable, hparts⟩ := Except.bind_eq_ok.mp hu
  exact sound_ofParts (h.table.take htable) hparts

theorem Sound.append {t u v : JsonTable} (ht : t.Sound) (hu : u.Sound)
    (h : t.append u = .ok v) : v.Sound := by
  obtain ⟨table, htable, hv⟩ := Except.bind_eq_ok.mp h
  obtain rfl := Except.ok.inj hv
  have hdocuments := Table.documents_append htable
  refine ⟨ht.table.append hu.table htable, ?_⟩
  have hcount : table.documents.length = t.rowCount + u.rowCount := by
    rw [hdocuments, List.length_append]
    rfl
  rw [rowCount, Table.rowCount, hcount, List.length_append, ht.nodes, hu.nodes]

theorem Sound.move {t u : JsonTable} (h : t.Sound) (hmove : Move t u) : u.Sound := by
  obtain ⟨halign, -⟩ := hmove.places h.aligned
  refine ⟨?_, halign.symm⟩
  cases hmove with
  | write hwritten =>
      obtain ⟨table, htable, rfl⟩ := Except.map_eq_ok.mp hwritten
      exact h.table.withColumn htable
  | keep hkept =>
      obtain ⟨table, htable, hu⟩ := Except.bind_eq_ok.mp hkept
      obtain rfl := Except.ok.inj hu
      exact h.table.filterRows htable
  | descend way => exact h.table.select _

theorem Sound.moves {t u : JsonTable} (h : t.Sound) (hmoves : Moves t u) : u.Sound := by
  induction hmoves with
  | refl => exact h
  | tail _ hmove ih => exact ih.move hmove

end JsonTable

-- A table without values is handed back as it is, if at all.
theorem Verb.callOnTable_ok {verb : Verb} {form : Form} {arguments : Arguments} {t u : Table}
    (h : (verb.callOnTable form arguments t).result = .ok u) : u = t := by
  unfold callOnTable at h
  split at h
  · obtain ⟨_, hthrow, -⟩ := Traced.result_bind_eq_ok.mp h
    cases hthrow
  · obtain ⟨bound, _, happly⟩ := Traced.result_bind_eq_ok.mp h
    obtain ⟨_, _, happly⟩ := Traced.result_bind_eq_ok.mp happly
    split at happly
    · exact (Except.ok.inj happly).symm
    · cases happly

namespace Source

theorem sound_ofTable {channel : Channel} {t : Table} {column : Datum} {u : JsonTable}
    (ht : t.Sound) (h : (ofTable channel t column).result = .ok u) : u.Sound := by
  obtain ⟨_, nodes, _, hparts⟩ := ofTable_ok h
  exact JsonTable.sound_ofParts (ht.filter _) hparts

theorem sound_load_datum {channel : Channel} {d column : Datum} {t : JsonTable}
    (h : (load channel (.datum d) column).result = .ok t) : t.Sound := by
  obtain ⟨nodes, rfl, -⟩ := load_datum_ok h
  exact JsonTable.sound_ofDocuments nodes

theorem sound_load_frame {channel : Channel} {frame : Frame} {column : Datum} {t : JsonTable}
    (hframe : frame.Delivered) (h : (load channel (.frame frame) column).result = .ok t) :
    t.Sound := by
  obtain ⟨table, htable, hload⟩ := Traced.result_bind_eq_ok.mp h
  exact sound_ofTable (Table.sound_ofFrame hframe htable) hload

end Source

-- What callers hold: a table, or one with values.
inductive Tabular where
  | table (t : Table)
  | tidy (t : JsonTable)

namespace Tabular

def Sound : Tabular → Prop
  | table t => t.Sound
  | tidy t => t.Sound

-- One operation on what is held.
inductive Step : Tabular → Tabular → Prop
  | withColumn {t u name type cells} : t.withColumn name type cells = .ok u →
      Step (table t) (table u)
  | take {t u positions} : t.take positions = .ok u → Step (table t) (table u)
  | filterRows {t u mask} : t.filterRows mask = .ok u → Step (table t) (table u)
  | callOnTable {t u} {verb : Verb} {form arguments} :
      (verb.callOnTable form arguments t).result = .ok u → Step (table t) (table u)
  | loadTable {t u channel column} : (Source.load channel (.table t) column).result = .ok u →
      Step (table t) (tidy u)
  | ofParts {t values u} : JsonTable.ofParts t values = .ok u → Step (table t) (tidy u)
  | run {t u} (operation : JsonTable.Operation) : operation.run t = .ok u →
      Step (tidy t) (tidy u)
  | restack {t u positions values} : t.restack positions values = .ok u →
      Step (tidy t) (tidy u)
  | loadTidy {t u channel column} : (Source.load channel (.tidy t) column).result = .ok u →
      Step (tidy t) (tidy u)
  | asTable {t} : Step (tidy t) (table t.table)

-- What can be come by: from documents or a frame, by operations, and by putting rows together.
inductive Obtained : Tabular → Prop
  | forDocuments (count : Int) : Obtained (table (.forDocuments count))
  | ofFrame {frame t} : frame.Delivered → (Table.ofFrame frame).result = .ok t →
      Obtained (table t)
  | load {channel d column t} : (Source.load channel (.datum d) column).result = .ok t →
      Obtained (tidy t)
  | loadFrame {channel frame column t} : frame.Delivered →
      (Source.load channel (.frame frame) column).result = .ok t → Obtained (tidy t)
  | step {x y} : Obtained x → Step x y → Obtained y
  | appendTables {t u v} : Obtained (table t) → Obtained (table u) → t.append u = .ok v →
      Obtained (table v)
  | append {t u v} : Obtained (tidy t) → Obtained (tidy u) → t.append u = .ok v →
      Obtained (tidy v)

theorem Sound.step {x y : Tabular} (h : x.Sound) (hstep : Step x y) : y.Sound := by
  cases hstep with
  | withColumn hu => exact Table.Sound.withColumn h hu
  | take hu => exact Table.Sound.take h hu
  | filterRows hu => exact Table.Sound.filterRows h hu
  | callOnTable hu =>
      obtain rfl := Verb.callOnTable_ok hu
      exact h
  | loadTable hu => exact Source.sound_ofTable h hu
  | ofParts hu => exact JsonTable.sound_ofParts h hu
  | run operation hu => exact JsonTable.Sound.moves h (JsonTable.Operation.moves_run hu)
  | restack hu => exact JsonTable.Sound.restack h hu
  | loadTidy hu =>
      obtain rfl := Except.ok.inj hu
      exact h
  | asTable => exact JsonTable.Sound.table h

-- Whatever is come by is sound, although most operations check nothing of what they put together.
theorem representation_invariant {x : Tabular} (h : Obtained x) : x.Sound := by
  induction h with
  | forDocuments count => exact Table.sound_forDocuments count
  | ofFrame hframe htable => exact Table.sound_ofFrame hframe htable
  | load ht => exact Source.sound_load_datum ht
  | loadFrame hframe ht => exact Source.sound_load_frame hframe ht
  | step _ hstep ih => exact ih.step hstep
  | appendTables _ _ hv iht ihu => exact Table.Sound.append iht ihu hv
  | append _ _ hv iht ihu => exact JsonTable.Sound.append iht ihu hv

-- A frame with integers and documents, whose one document is an array of one element.
theorem representation_invariant_frame :
    Obtained (tidy ⟨⟨[1], [("n", ⟨.integer, [.int 3]⟩), ("array.index", ⟨.integer, [.int 1]⟩)]⟩,
      [{ json := .logical true, path := [.index 1] }]⟩) ∧
    Sound (tidy ⟨⟨[1], [("n", ⟨.integer, [.int 3]⟩), ("array.index", ⟨.integer, [.int 1]⟩)]⟩,
      [{ json := .logical true, path := [.index 1] }]⟩) := by
  let columns : List (Datum × Frame.Column) :=
    [(.text "n", ⟨.machine .integer, [.int 3]⟩), (.text "j", ⟨.loose, [.text "[true]"]⟩)]
  have hcolumns : Frame.ofColumns columns = .ok columns := rfl
  have hframe : Frame.Delivered columns := by
    refine Frame.delivered_ofColumns (fun e he _ => ?_) hcolumns
    rcases List.mem_cons.mp he with rfl | he
    · decide
    · obtain rfl := List.mem_singleton.mp he
      decide
  have hload : (Source.load .parser (.frame columns) (.text "j")).result =
      .ok ⟨⟨[1], [("n", ⟨.integer, [.int 3]⟩)]⟩, [{ json := .array [.logical true] }]⟩ := rfl
  have hrun : JsonTable.Operation.run (.call .gatherArray .method {})
      ⟨⟨[1], [("n", ⟨.integer, [.int 3]⟩)]⟩, [{ json := .array [.logical true] }]⟩ =
      .ok ⟨⟨[1], [("n", ⟨.integer, [.int 3]⟩), ("array.index", ⟨.integer, [.int 1]⟩)]⟩,
        [{ json := .logical true, path := [.index 1] }]⟩ := rfl
  have hobtained := (Obtained.loadFrame hframe hload).step (.run _ hrun)
  exact ⟨hobtained, representation_invariant hobtained⟩

end Tabular

end Unnest
