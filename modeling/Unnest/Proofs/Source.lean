import Unnest.Proofs.Document
import Unnest.Proofs.JsonTable.Places
import Unnest.Source

namespace Unnest

namespace Document

-- What a source of a document is read as; an absent document is a null.
def read (channel : Channel) (number : Nat) (source : Datum) : Except Failure Node :=
  match source with
  | .none => .ok .null
  | source => (parse channel source number).result

-- Documents are counted from one.
def IsRoot (channel : Channel) (documents : List Datum) (number : Nat) (root : Node) : Prop :=
  1 ≤ number ∧ ∃ source, documents[number - 1]? = some source ∧
    read channel number source = .ok root

theorem IsRoot.le_length {channel : Channel} {documents : List Datum} {number : Nat} {root : Node}
    (h : IsRoot channel documents number root) : number ≤ documents.length := by
  obtain ⟨hnumber, source, hsource, -⟩ := h
  have hlt := (List.getElem?_eq_some_iff.mp hsource).1
  omega

theorem IsRoot.unique {channel : Channel} {documents : List Datum} {number : Nat} {v w : Node}
    (hv : IsRoot channel documents number v) (hw : IsRoot channel documents number w) :
    v = w := by
  obtain ⟨-, source, hsource, hv⟩ := hv
  obtain ⟨-, other, hother, hw⟩ := hw
  obtain rfl := Option.some.inj (hsource.symm.trans hother)
  exact Except.ok.inj (hv.symm.trans hw)

theorem parse_text {channel : Channel} {source : Datum} {document : Int} {v : Node}
    (h : (parse channel source document).result = .ok v) : ∃ s, source = .text s := by
  cases source with
  | text s => exact ⟨s, rfl⟩
  | _ =>
      unfold parse at h
      obtain ⟨_, hrequire, -⟩ := Traced.result_bind_eq_ok.mp h
      cases Findings.require_eq_ok_iff.mp hrequire

-- No object of a document has a key twice, and paths start at its root.
theorem parse_ok {channel : Channel} {source : Datum} {document : Int} {v : Node}
    (h : (parse channel source document).result = .ok v) :
    v.json.WellFormed ∧ v.path = [] ∧ v.origin = [] := by
  obtain ⟨s, rfl⟩ := parse_text h
  obtain ⟨_, json, hdecode, _, rfl⟩ := parse_eq_ok_iff.mp h
  obtain ⟨_, @⟨_, _, _, _, _, _, hjson, _⟩, _⟩ := Json.Grammar.decode_eq_ok_iff.mp hdecode
  exact ⟨hjson.wellFormed, rfl, rfl⟩

theorem read_ok {channel : Channel} {number : Nat} {source : Datum} {v : Node}
    (h : read channel number source = .ok v) :
    v.json.WellFormed ∧ v.path = [] ∧ v.origin = [] := by
  unfold read at h
  split at h
  · obtain rfl := Except.ok.inj h
    exact ⟨.scalar rfl rfl, rfl, rfl⟩
  · exact parse_ok h

-- Documents are read in order, each by its number.
theorem result_parseAll (channel : Channel) (sources : List Datum) :
    (parseAll channel sources).result =
      (sources.zipIdx 1).mapM fun e => read channel e.2 e.1 := by
  have hall (f : Datum × Nat → Traced Node)
      (hf : ∀ e, (f e).result = read channel e.2 e.1) :
      ((sources.zipIdx 1).mapM f).result =
        (sources.zipIdx 1).mapM fun e => read channel e.2 e.1 := by
    simp only [Traced.result_mapM, hf]
  unfold parseAll
  rw [Traced.result_bind, hall _ fun ⟨source, number⟩ => by cases source <;> rfl]
  cases (sources.zipIdx 1).mapM fun e => read channel e.2 e.1 <;> rfl

theorem parseAll_ok {channel : Channel} {sources : List Datum} {nodes : List Node}
    (h : (parseAll channel sources).result = .ok nodes) :
    List.Forall₂ (fun e v => read channel e.2 e.1 = .ok v) (sources.zipIdx 1) nodes := by
  rw [result_parseAll] at h
  exact Except.mapM_eq_ok_iff.mp h

-- Who notes the reading makes no difference to what is read.
theorem result_parse_channel (channel other : Channel) (source : Datum) (document : Int) :
    (parse channel source document).result = (parse other source document).result := by
  have hrequire (found : Findings) (context : Datum) :
      (found.require channel context).result = (found.require other context).result := by
    unfold Findings.require
    cases found.faults <;> rfl
  unfold parse
  simp only [Traced.result_bind, hrequire]
  congr 1
  funext _
  split
  · split
    · simp only [Traced.result_bind, Traced.result_note]
    · rfl
  · simp only [Traced.result_bind, hrequire]
  · rfl
  · rfl
  · simp only [Traced.result_bind, hrequire]

theorem result_parseAll_channel (channel other : Channel) (sources : List Datum) :
    (parseAll channel sources).result = (parseAll other sources).result := by
  have hread (number : Nat) (source : Datum) :
      read channel number source = read other number source := by
    cases source with
    | none => rfl
    | _ => exact result_parse_channel channel other _ number
  simp only [result_parseAll, hread]

end Document

namespace Source

open Document

-- The values of a table source are those of the documents in a column of it.
theorem ofTable_ok {channel : Channel} {t : Table} {column : Datum} {u : JsonTable}
    (h : (ofTable channel t column).result = .ok u) :
    ∃ sources nodes, (parseAll channel sources).result = .ok nodes ∧
      JsonTable.ofParts { t with others := t.others.filter fun (name, _) => column != .text name }
        (nodes.map .node) = .ok u := by
  unfold ofTable at h
  split at h
  · obtain ⟨_, hthrow, -⟩ := Traced.result_bind_eq_ok.mp h
    cases hthrow
  · obtain ⟨found, _, hfound⟩ := Traced.result_bind_eq_ok.mp h
    split at hfound
    · obtain ⟨_, _, hthrow⟩ := Traced.result_bind_eq_ok.mp hfound
      cases hthrow
    · obtain ⟨_, _, htype⟩ := Traced.result_bind_eq_ok.mp hfound
      split at htype
      · obtain ⟨_, hthrow, -⟩ := Traced.result_bind_eq_ok.mp htype
        cases hthrow
      · obtain ⟨nodes, hnodes, hparts⟩ := Traced.result_bind_eq_ok.mp htype
        exact ⟨_, nodes, hnodes, hparts⟩

-- Any other source than a table is one document, or a list of them.
theorem load_datum_ok {channel : Channel} {d column : Datum} {t : JsonTable}
    (h : (load channel (.datum d) column).result = .ok t) :
    ∃ nodes, t = .ofDocuments nodes ∧
      ((∃ v, nodes = [v] ∧ (parse channel d).result = .ok v) ∨
        ∃ sources, (parseAll channel sources).result = .ok nodes) := by
  cases column with
  | none =>
      cases d with
      | text s =>
          obtain ⟨v, hv, ht⟩ := Traced.result_bind_eq_ok.mp h
          exact ⟨[v], (Except.ok.inj ht).symm, .inl ⟨v, rfl, hv⟩⟩
      | list ds | tuple ds =>
          obtain ⟨nodes, hnodes, ht⟩ := Traced.result_bind_eq_ok.mp h
          exact ⟨nodes, (Except.ok.inj ht).symm, .inr ⟨ds, hnodes⟩⟩
      | _ => cases h
  | _ => cases h

theorem result_ofTable_channel (channel other : Channel) (t : Table) (column : Datum) :
    (ofTable channel t column).result = (ofTable other t column).result := by
  unfold ofTable
  split
  · rfl
  · simp only [Traced.result_bind]
    congr 1
    funext found
    cases found with
    | none => rfl
    | some c =>
        simp only [Traced.result_bind]
        congr 1
        funext shown
        split
        · rfl
        · simp only [Traced.result_bind, result_parseAll_channel channel other]

theorem result_load_channel (source : Source) (channel other : Channel) (column : Datum) :
    (source.load channel column).result = (source.load other column).result := by
  cases source with
  | tidy t => rfl
  | table t => exact result_ofTable_channel channel other t column
  | frame f =>
      simp only [load, Traced.result_bind, result_ofTable_channel channel other]
  | datum d =>
      cases column with
      | none =>
          cases d <;> simp only [load, Traced.result_bind, result_parse_channel channel other,
            result_parseAll_channel channel other]
      | _ => rfl

-- A list of documents gives one row for each of them, with its root.
theorem load_documents {channel : Channel} {documents : List Datum} {t : JsonTable}
    (h : (load channel (.datum (.list documents)) .none).result = .ok t) :
    t.Aligned ∧ t.table.documents = List.range' 1 documents.length ∧
      ∀ e ∈ t.places, IsRoot channel documents e.1 e.2 := by
  simp only [load, Traced.result_bind_eq_ok] at h
  obtain ⟨nodes, hnodes, ht⟩ := h
  obtain rfl := Except.ok.inj ht
  have hread := parseAll_ok hnodes
  have hlength : documents.length = nodes.length := by
    simpa using hread.length_eq
  have hdocuments : (JsonTable.ofDocuments nodes).table.documents =
      List.range' 1 documents.length := by
    simp [JsonTable.ofDocuments, Table.forDocuments, hlength]
  refine ⟨?_, hdocuments, fun e he => ?_⟩
  · rw [JsonTable.Aligned, hdocuments, List.length_range', hlength]
    rfl
  · rw [JsonTable.places, hdocuments] at he
    obtain ⟨i, hi, rfl⟩ := List.getElem_of_mem he
    simp only [List.length_zip, List.length_range', Nat.lt_min] at hi
    obtain ⟨hi, hi'⟩ := hi
    have hroot := hread.get (i := i) (by simpa using hi) hi'
    simp only [List.get_eq_getElem, List.getElem_zipIdx] at hroot
    refine ⟨by simp, documents[i], ?_, by simpa [JsonTable.ofDocuments] using hroot⟩
    simp [hi]

end Source

end Unnest
