import Unnest.Proofs.JsonTable.Legible
import Unnest.Proofs.Table.Frame
import Unnest.Proofs.Table.Rows

namespace Unnest

namespace Document

-- Documents some of which are absent.
def offered (entries : List (Option Text)) : List Datum :=
  entries.map fun entry => (entry.map .text).getD .none

-- What documents are read as, counted from one.
def Reads (channel : Channel) (sources : List Datum) (nodes : List Node) : Prop :=
  List.Forall₂ (fun e v => read channel e.2 e.1 = .ok v) (sources.zipIdx 1) nodes

@[simp] theorem length_offered (entries : List (Option Text)) :
    (offered entries).length = entries.length :=
  List.length_map _

theorem offered_fits (entries : List (Option Text)) :
    ∀ d ∈ offered entries, ColumnType.string.Fits d := by
  intro d hd
  obtain ⟨entry, -, rfl⟩ := List.mem_map.mp hd
  cases entry with
  | none => exact .inl rfl
  | some s => exact .inr rfl

theorem Reads.length {channel : Channel} {sources : List Datum} {nodes : List Node}
    (h : Reads channel sources nodes) : nodes.length = sources.length := by
  simpa using h.length_eq.symm

theorem result_parseAll_eq_ok_iff {channel : Channel} {sources : List Datum}
    {nodes : List Node} :
    (parseAll channel sources).result = .ok nodes ↔ Reads channel sources nodes := by
  rw [result_parseAll, Except.mapM_eq_ok_iff, Reads]

-- The first text that cannot be read spoils them all, and its number is in the failure. An absent
-- document does no harm.
theorem result_parseAll_eq_error_iff {channel : Channel} {entries : List (Option Text)}
    {e : Failure} :
    (parseAll channel (offered entries)).result = .error e ↔
      ∃ before s later nodes, entries = before ++ some s :: later ∧
        Reads channel (offered before) nodes ∧
        (parse channel (.text s) (before.length + 1 : Nat)).result = .error e := by
  rw [result_parseAll, Except.mapM_eq_error_iff]
  constructor
  · rintro ⟨numbered, a, rest, nodes, hsplit, hnodes, ha⟩
    obtain ⟨sources, others, hsources, rfl, hrest⟩ := List.zipIdx_eq_append_iff.mp hsplit
    obtain ⟨source, more, rfl, rfl, rfl⟩ := List.zipIdx_eq_cons_iff.mp hrest.symm
    obtain ⟨before, remaining, rfl, rfl, hremaining⟩ := List.map_eq_append_iff.mp hsources
    obtain ⟨entry, later, rfl, rfl, rfl⟩ := List.map_eq_cons_iff.mp hremaining
    cases entry with
    | none => cases ha
    | some s =>
        rw [List.length_map, Nat.add_comm] at ha
        exact ⟨before, s, later, nodes, rfl, Except.mapM_eq_ok_iff.mp hnodes, ha⟩
  · rintro ⟨before, s, later, nodes, rfl, hnodes, hs⟩
    refine ⟨(offered before).zipIdx 1, (.text s, before.length + 1),
      (offered later).zipIdx (before.length + 2), nodes, ?_, Except.mapM_eq_ok_iff.mpr hnodes, hs⟩
    have hnumber : 1 + before.length = before.length + 1 := Nat.add_comm ..
    rw [offered, List.map_append, List.map_cons, List.zipIdx_append, List.zipIdx_cons,
      List.length_map, hnumber]
    rfl

end Document

namespace Source

open Document Validation

-- The ways in which documents can be offered. A table and a frame are told the column that holds
-- them.
inductive Offers (entries : List (Option Text)) : Source → Datum → Prop
  | list : Offers entries (.datum (.list (offered entries))) .none
  | tuple : Offers entries (.datum (.tuple (offered entries))) .none
  | single {s : Text} : entries = [some s] → Offers entries (.datum (.text s)) .none
  | table {key : Text} {t : Table} :
      (Table.forDocuments entries.length).withColumn (.text key) .string (offered entries) =
        .ok t → Offers entries (.table t) (.text key)
  | frame {key : Text} {frame : Frame} : Writable key →
      Frame.ofColumns [(.text key, ⟨.loose, offered entries⟩)] = .ok frame →
      Offers entries (.frame frame) (.text key)

-- Next to the column of documents a table keeps everything, and each row gets its document.
theorem result_ofTable_string (channel : Channel) {t : Table} {key : Text} {c : Column}
    (hcolumn : t.columns.lookup key = some c) (hstring : c.type = .string)
    (hlength : c.cells.length = t.rowCount) :
    (ofTable channel t (.text key)).result = (parseAll channel c.cells).result.map fun nodes =>
      ⟨{ t with others := t.others.filter fun e => e.1 ≠ key }, nodes⟩ := by
  have hfound : t.column? (.text key) = .ok (some c) := by
    simp [Table.column?, Datum.isKey, hcolumn]
  have hshown : (Datum.text key).plain = .ok key := rfl
  have hothers : (t.others.filter fun e => Datum.text key != .text e.1) =
      t.others.filter fun e => e.1 ≠ key := by
    refine List.filter_congr fun e _ => ?_
    have hname : (Datum.text key != .text e.1) = (key != e.1) := rfl
    rw [hname, Bool.eq_iff_iff, bne_iff_ne, decide_eq_true_iff, ne_comm]
  simp only [ofTable, Traced.result_bind, Traced.result_liftM, hfound, hshown, Except.ok_bind,
    hstring, ne_eq, not_true_eq_false, if_false, hothers]
  cases hnodes : (parseAll channel c.cells).result with
  | error e => rfl
  | ok nodes =>
      have hcount := (result_parseAll_eq_ok_iff.mp hnodes).length
      exact JsonTable.ofParts_of_length (hlength.symm.trans hcount.symm)

-- The table that holds the documents under a name, and nothing else.
def holder (key : Text) (entries : List (Option Text)) : Table :=
  ⟨List.range' 1 entries.length, [(key, ⟨.string, offered entries⟩)]⟩

variable {key : Text} {entries : List (Option Text)}

theorem withColumn_holder (hkey : Writable key) :
    (Table.forDocuments entries.length).withColumn (.text key) .string (offered entries) =
      .ok (holder key entries) := by
  rw [Table.withColumn_eq_ok hkey (by simp) (offered_fits entries)]
  rfl

theorem sound_holder (hkey : Writable key) : (holder key entries).Sound :=
  (Table.sound_forDocuments _).withColumn (withColumn_holder hkey)

theorem importColumn_offered (hkey : key ≠ []) :
    Table.importColumn (.text key) ⟨.loose, offered entries⟩ =
      .ok (key, ⟨.string, offered entries⟩) := by
  have himported : (offered entries).mapM Datum.imported = .ok (offered entries) := by
    refine Except.mapM_eq_ok_iff.mpr (List.forall₂_same.mpr fun d hd => ?_)
    rcases offered_fits entries d hd with rfl | hd
    · rfl
    · cases d <;> first | rfl | cases hd
  have hinferred : Table.infer? (offered entries) = some .string := by
    refine List.find?_cons_of_pos (List.all_eq_true.mpr fun d hd => ?_)
    rcases offered_fits entries d hd with rfl | hd
    · rfl
    · exact Bool.or_eq_true_iff.mpr (.inr hd)
  exact Table.importColumn_eq_ok_iff.mpr ⟨rfl, hkey, hinferred, himported⟩

theorem ofColumns_offered (key : Text) (entries : List (Option Text)) :
    Frame.ofColumns [(.text key, ⟨.loose, offered entries⟩)] =
      .ok [(.text key, ⟨.loose, offered entries⟩)] := by
  have hfill : Frame.Column.fill (offered entries).length ⟨.loose, offered entries⟩ =
      ⟨.loose, offered entries⟩ := if_pos (Nat.le_refl _)
  have hsize : max 0 (offered entries).length = (offered entries).length := Nat.zero_max _
  show Except.ok [(Datum.text key, Frame.Column.fill (max 0 (offered entries).length)
    ⟨.loose, offered entries⟩)] = _
  rw [hsize, hfill]

-- A frame has no numbers of documents, but one document for each row.
theorem result_ofFrame_offered (hkey : Writable key) :
    (Table.ofFrame [(.text key, ⟨.loose, offered entries⟩)]).result =
      .ok (holder key entries) := by
  have hlabels := @Table.ofFrame_of_labels [(.text key, ⟨.loose, offered entries⟩)]
    (Label.ofNames_text [key])
  have hreserved : [(key, (⟨.string, offered entries⟩ : Column))].any
      (fun e => e.1 = documentColumn) = false := by
    simp [hkey.2]
  have hcount : Frame.rowCount [(.text key, ⟨.loose, offered entries⟩)] = entries.length :=
    length_offered entries
  have hsound : (holder key entries).Sound := sound_holder hkey
  have hcolumns := hsound.ofColumns?_columns
  simp only [hlabels, Table.ofLabelled, Traced.result_bind,
    Traced.result_liftM, Traced.result_note, Except.ok_bind, List.mapM_cons, List.mapM_nil,
    importColumn_offered hkey.1, hcount]
  exact (congrArg Table.ofColumns? (if_neg (ne_true_of_eq_false hreserved))).trans hcolumns

-- Whichever way the documents are offered, they are read in order.
theorem Offers.result_load (channel : Channel) {source : Source} {column : Datum}
    (h : Offers entries source column) :
    (load channel source column).result =
      (parseAll channel (offered entries)).result.map .ofDocuments := by
  have hholder {key : Text} (hkey : Writable key) :
      (ofTable channel (holder key entries) (.text key)).result =
        (parseAll channel (offered entries)).result.map .ofDocuments := by
    have hcolumn : (holder key entries).columns.lookup key = some ⟨.string, offered entries⟩ := by
      have hne : (key == documentColumn) = false := beq_eq_false_iff_ne.mpr hkey.2
      simp [holder, Table.columns, List.lookup_cons, hne]
    rw [result_ofTable_string channel hcolumn rfl (by simp [holder, Table.rowCount])]
    cases hnodes : (parseAll channel (offered entries)).result with
    | error e => rfl
    | ok nodes =>
        have hcount := (result_parseAll_eq_ok_iff.mp hnodes).length
        rw [length_offered] at hcount
        simp [holder, Except.map, JsonTable.ofDocuments, Table.forDocuments, hcount]
  cases h with
  | list | tuple =>
      simp only [load, Traced.result_bind]
      cases (parseAll channel (offered entries)).result <;> rfl
  | @single s hentries =>
      subst hentries
      have hread : (parseAll channel (offered [some s])).result =
          (parse channel (.text s)).result.map fun v => [v] := by
        have hone : (offered [some s]).zipIdx 1 = [(.text s, 1)] := rfl
        have hread : read channel 1 (.text s) = (parse channel (.text s)).result := rfl
        rw [result_parseAll, hone, List.mapM_cons, List.mapM_nil, hread]
        cases (parse channel (.text s)).result <;> rfl
      simp only [load, Traced.result_bind, hread]
      cases (parse channel (.text s)).result <;> rfl
  | table ht =>
      obtain ⟨key, hkey, hnil, hdocument, -⟩ := Table.withColumn_ok ht
      obtain rfl := Datum.text.inj hkey
      rw [withColumn_holder ⟨hnil, hdocument⟩] at ht
      obtain rfl := Except.ok.inj ht
      exact hholder ⟨hnil, hdocument⟩
  | frame hkey hframe =>
      rw [ofColumns_offered] at hframe
      obtain rfl := Except.ok.inj hframe
      simp only [load, Traced.result_bind, result_ofFrame_offered hkey, Except.ok_bind]
      exact hholder hkey

-- The same documents come to the same table with values, or to the same failure, however they are
-- offered. The first text that cannot be read decides the failure; otherwise there is one row for
-- each document, and no column but that of the numbers. A table keeps its other columns.
theorem load_agrees (channel : Channel) (entries : List (Option Text)) :
    (∀ source column, Offers entries source column →
      (load channel source column).result =
        (load channel (.datum (.list (offered entries))) .none).result) ∧
    (∀ key, Writable key → ∃ t frame,
      Offers entries (.table t) (.text key) ∧ Offers entries (.frame frame) (.text key)) ∧
    (∀ e, (load channel (.datum (.list (offered entries))) .none).result = .error e ↔
      ∃ before s later nodes, entries = before ++ some s :: later ∧
        Reads channel (offered before) nodes ∧
        (parse channel (.text s) (before.length + 1 : Nat)).result = .error e) ∧
    (∀ u, (load channel (.datum (.list (offered entries))) .none).result = .ok u ↔
      u.table = ⟨List.range' 1 entries.length, []⟩ ∧ Reads channel (offered entries) u.nodes) ∧
    ∀ (t : Table) (key : Text) (c : Column), t.columns.lookup key = some c → c.type = .string →
      c.cells.length = t.rowCount →
      ∃ others : Table, others.columns = t.columns.filter (fun e => e.1 ≠ key) ∧
        (load channel (.table t) (.text key)).result =
          (parseAll channel c.cells).result.map fun nodes => ⟨others, nodes⟩ := by
  have hlist := (@Offers.list entries).result_load channel
  refine ⟨fun source column h => (h.result_load channel).trans hlist.symm, fun key hkey => ?_,
    fun e => ?_, fun u => ?_, fun t key c hcolumn hstring hlength => ?_⟩
  · exact ⟨_, _, .table (withColumn_holder hkey), .frame hkey (ofColumns_offered key entries)⟩
  · rw [hlist, Except.map_eq_error]
    exact result_parseAll_eq_error_iff
  · rw [hlist, Except.map_eq_ok]
    constructor
    · rintro ⟨nodes, hnodes, rfl⟩
      have hreads := result_parseAll_eq_ok_iff.mp hnodes
      have hcount := hreads.length
      rw [length_offered] at hcount
      exact ⟨by simp [JsonTable.ofDocuments, Table.forDocuments, hcount], hreads⟩
    · rintro ⟨htable, hreads⟩
      have hcount := hreads.length
      rw [length_offered] at hcount
      refine ⟨u.nodes, result_parseAll_eq_ok_iff.mpr hreads, ?_⟩
      obtain ⟨table, nodes⟩ := u
      simp_all [JsonTable.ofDocuments, Table.forDocuments]
  · have hkey : documentColumn ≠ key := by
      rintro rfl
      rw [Table.columns, List.lookup_cons_self] at hcolumn
      obtain rfl := Option.some.inj hcolumn
      cases hstring
    refine ⟨_, ?_, result_ofTable_string channel hcolumn hstring hlength⟩
    rw [Table.columns, Table.columns, List.filter_cons_of_pos (by simpa using hkey)]
    rfl

-- The third document is the first that cannot be read, and a table keeps what stands around its
-- documents.
theorem load_agrees_third :
    ∃ (e : Failure) (t : Table) (frame : Frame),
      Writable "j" ∧ (parse .parser (.text "[") 3).result = .error e ∧
      Offers [none, some "1", some "[", some "]"] (.table t) (.text "j") ∧
      (load .parser (.table t) (.text "j")).result = .error e ∧
      Offers [none, some "1", some "[", some "]"] (.frame frame) (.text "j") ∧
      (load .parser (.frame frame) (.text "j")).result = .error e ∧
      ∃ others : Table, others.names = ["document.id", "m", "n"] ∧
        (load .parser (.table ⟨[4, 2], [("m", ⟨.logical, [.bool true, .none]⟩),
            ("j", ⟨.string, [.text "1", .none]⟩), ("n", ⟨.integer, [.int 7, .int 8]⟩)]⟩)
          (.text "j")).result = .ok ⟨others, [{ json := .number (.int 1) }, .null]⟩ := by
  have hkey : Writable "j" := by decide
  obtain ⟨e, he⟩ : ∃ e, (parse .parser (.text "[") 3).result = .error e := ⟨_, rfl⟩
  obtain ⟨hsame, hroutes, hfails, -, hkeeps⟩ :=
    load_agrees .parser [none, some "1", some "[", some "]"]
  obtain ⟨t, frame, ht, hframe⟩ := hroutes "j" hkey
  have hlist := (hfails e).mpr ⟨[none, some "1"], "[", [some "]"], _, rfl,
    .cons rfl (.cons rfl .nil), he⟩
  let table : Table := ⟨[4, 2], [("m", ⟨.logical, [.bool true, .none]⟩),
    ("j", ⟨.string, [.text "1", .none]⟩), ("n", ⟨.integer, [.int 7, .int 8]⟩)]⟩
  obtain ⟨others, hothers, hload⟩ := hkeeps table "j" ⟨.string, [.text "1", .none]⟩ rfl rfl rfl
  refine ⟨e, t, frame, hkey, he, ht, (hsame _ _ ht).trans hlist, hframe,
    (hsame _ _ hframe).trans hlist, others, ?_, hload⟩
  rw [Table.names, hothers]
  rfl

end Source

end Unnest
