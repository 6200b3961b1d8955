import Unnest.Proofs.JsonTable.Gather
import Unnest.Proofs.JsonTable.Settled

namespace Unnest

theorem Verb.call_of_receive {verb : Verb} {form : Form} {arguments bound : Arguments}
    (h : verb.receive form arguments = .ok bound) (t : JsonTable) :
    verb.call form arguments t = verb.apply bound.positions bound.names t := by
  rw [Verb.call, h]
  exact pure_bind bound _

-- A verb with one parameter receives one argument.
theorem Verb.exists_argument {verb : Verb} {form : Form} {arguments bound : Arguments}
    {p : Verb.Parameter} (hsignature : verb.signature = .listed [p])
    (h : verb.receive form arguments = .ok bound) : ∃ d, bound.positions = [d] := by
  have hbind := Verb.bind?_of_receive h
  rw [Arguments.bind?, hsignature] at hbind
  obtain ⟨args, hargs, rfl⟩ := Option.map_eq_some_iff.mp hbind
  exact List.length_eq_one_iff.mp (Arguments.length_fill hargs)

namespace JsonTable

open Validation

-- What is noted of a verb that makes rows of rows: how many it was given, how many it made, and of
-- how many it made none.
def restacked (verb : Text) (given made dropped : Nat) : Record :=
  ⟨.debug, .structural, .concat [verb, ": ", .ofNat given, " rows in, ", .ofNat made,
    " rows out, ", .ofNat dropped, " source rows dropped"]⟩

section

variable (t : JsonTable) (children : Node → List (Datum × Node))

theorem mem_sources {i : Nat} : i ∈ (t.offspring children).map Offspring.source ↔
    ∃ v, (v, i) ∈ t.nodes.zipIdx ∧ children v ≠ [] := by
  constructor
  · intro hi
    obtain ⟨o, ho, rfl⟩ := List.mem_map.mp hi
    obtain ⟨⟨v, i⟩, hv, ho⟩ := List.mem_flatMap.mp ho
    obtain ⟨c, hc, rfl⟩ := List.mem_map.mp ho
    exact ⟨v, hv, List.ne_nil_of_mem hc⟩
  · rintro ⟨v, hv, hne⟩
    obtain ⟨c, hc⟩ := List.exists_mem_of_ne_nil _ hne
    exact List.mem_map.mpr ⟨⟨i, c.1, c.2⟩,
      List.mem_flatMap.mpr ⟨(v, i), hv, List.mem_map.mpr ⟨c, hc, rfl⟩⟩, rfl⟩

-- However many rows come from a row, it is one source.
theorem length_eraseDups_sources :
    ((t.offspring children).map Offspring.source).eraseDups.length =
      (t.nodes.filter fun v => !(children v).isEmpty).length := by
  have hnodup : ((t.nodes.zipIdx.filter fun e => !(children e.1).isEmpty).map Prod.snd).Nodup := by
    refine List.Nodup.sublist (List.filter_sublist.map _) ?_
    rw [List.zipIdx_map_snd]
    exact List.nodup_range'
  have hsame : ((t.offspring children).map Offspring.source).eraseDups.Perm
      ((t.nodes.zipIdx.filter fun e => !(children e.1).isEmpty).map Prod.snd) := by
    refine (List.perm_ext_iff_of_nodup (nodup_eraseDups _) hnodup).mpr fun i => ?_
    rw [List.mem_eraseDups, mem_sources]
    simp
  have hnodes : (t.nodes.filter fun v => !(children v).isEmpty) =
      (t.nodes.zipIdx.filter fun e => !(children e.1).isEmpty).map Prod.fst := by
    conv_lhs => rw [← List.zipIdx_map_fst 0 t.nodes, List.filter_map]
    rfl
  rw [hsame.length_eq, hnodes, List.length_map, List.length_map]

variable {t}

theorem noteRows_offspring (ht : t.Aligned) (verb : Text) :
    noteRows verb t (t.offspring children) =
      ⟨[restacked verb t.rowCount (t.offspring children).length
        (t.rows.filter fun r => (children r.2).isEmpty).length], .ok ()⟩ := by
  have hrows : (t.nodes.filter fun v => (children v).isEmpty).length =
      (t.rows.filter fun r => (children r.2).isEmpty).length := by
    rw [← map_snd_rows ht, List.filter_map, List.length_map]
    rfl
  have hall := t.nodes.length_eq_length_filter_add fun v => (children v).isEmpty
  have hcount : t.rowCount = t.nodes.length := ht
  have hdropped : t.rowCount - ((t.offspring children).map Offspring.source).eraseDups.length =
      (t.rows.filter fun r => (children r.2).isEmpty).length := by
    rw [length_eraseDups_sources, ← hrows]
    omega
  rw [noteRows, hdropped]
  rfl

end

-- A call that makes rows of the rows of a table and notes how many. Its rows are those that come
-- from each row in turn. A row from which none comes is one that does not satisfy the condition,
-- and as many are said to be dropped.
structure Restacks (call : Traced JsonTable) (t u : JsonTable) (verb : Text)
    (children : Row → List Row) (Gives : Row → Prop) [DecidablePred Gives] : Prop where
  aligned : u.Aligned
  rows : u.rows = t.rows.flatMap children
  gives : ∀ r, children r ≠ [] ↔ Gives r
  journal : call.journal =
    [restacked verb t.rowCount u.rowCount (t.rows.filter fun r => ¬Gives r).length]

theorem Restacks.of_journal {call : Traced JsonTable} {t u : JsonTable} (ht : t.Aligned)
    {verb : Text} (source : Node → List (Datum × Node))
    (make : List (Text × Datum) → Datum × Node → Row) {children : Row → List Row}
    {Gives : Row → Prop} [DecidablePred Gives] {schema : List (Text × ColumnType)}
    (hu : u.Shows schema (t.rows.flatMap children))
    (hchildren : ∀ r, children r = (source r.2).map (make r.1))
    (hgives : ∀ r, children r ≠ [] ↔ Gives r)
    (hjournal : call.journal = (noteRows verb t (t.offspring source)).journal) :
    Restacks call t u verb children Gives := by
  refine ⟨hu.aligned, hu.rows, hgives, ?_⟩
  have hmade : u.rowCount = (t.offspring source).length := by
    rw [← length_rows hu.aligned, hu.rows, funext hchildren,
      ← map_offspring ht source make, List.length_map]
  have hnone (r : Row) : (source r.2).isEmpty = decide ¬Gives r := by
    rw [Bool.eq_iff_iff, decide_eq_true_iff, ← hgives r, hchildren]
    simp
  rw [hjournal, noteRows_offspring source ht, hmade]
  simp only [hnone]

theorem journal_gather {t u : JsonTable} {verb key : Text} {type : ColumnType}
    {children : Node → List (Datum × Node)} (hkey : Writable key)
    (h : (t.gather verb type (.text key) children).result = .ok u) :
    (t.gather verb type (.text key) children).journal =
      (noteRows verb t (t.offspring children)).journal := by
  rw [result_gather hkey] at h
  have hcheck : checkNewColumn verb (.text key) = pure () := by
    rw [checkNewColumn, columnName_of_writable hkey]
    rfl
  simp only [gather, hcheck, pure_bind, h]
  rfl

theorem Restacks.of_gather {t u : JsonTable} (ht : t.Aligned) {verb : Text} {column : Datum}
    {type : ColumnType} {source : Node → List (Datum × Node)}
    (hfits : ∀ v, ∀ c ∈ source v, type.Fits c.1) {children : Text → Row → List Row}
    {Gives : Row → Prop} [DecidablePred Gives]
    (hchildren : ∀ key r, children key r = (source r.2).map fun c => (Entries.put key c.1 r.1, c.2))
    (hgives : ∀ key r, children key r ≠ [] ↔ Gives r)
    (h : (t.gather verb type column source).result = .ok u) :
    ∃ key, column = .text key ∧
      Restacks (t.gather verb type column source) t u verb (children key) Gives := by
  rcases gathered_or_refused verb column with ⟨key, rfl, hkey⟩ | ⟨e, he⟩
  · obtain ⟨w, hw, hshows⟩ := @shows_gather t ht verb key type source hkey hfits
    obtain rfl := Except.ok.inj (h.symm.trans hw)
    rw [← funext (hchildren key)] at hshows
    exact ⟨key, rfl, .of_journal ht source (fun row c => (Entries.put key c.1 row, c.2)) hshows
      (hchildren key) (hgives key) (journal_gather hkey h)⟩
  · cases (he ..).symm.trans h

theorem elementRows_ne_nil (key : Text) (r : Row) :
    elementRows key r ≠ [] ↔ r.2.kind = .array ∧ r.2.json.length ≠ 0 := by
  constructor
  · exact not_imp_comm.mp (elementRows_eq_nil key)
  · rintro ⟨hkind, hlength⟩
    obtain ⟨s, rest, heq, -⟩ := elementRows_eq_cons key hkind hlength
    exact heq ▸ List.cons_ne_nil s rest

theorem memberRows_ne_nil (key : Text) (r : Row) :
    memberRows key r ≠ [] ↔ r.2.kind = .object ∧ r.2.json.length ≠ 0 := by
  obtain ⟨row, v⟩ := r
  cases hjson : v.json with
  | object es => simp [memberRows, hjson, Node.kind, Json.kind, Json.length]
  | null | logical _ | number _ | string _ | array _ =>
      simp [memberRows, hjson, Node.kind, Json.kind]

-- The row that is found when keys are followed, if any.
def enteredRows (keys : List Text) (r : Row) : List Row :=
  ((r.2.walk? (keys.map .key)).map (r.1, ·)).toList

theorem enteredRows_ne_nil (keys : List Text) (r : Row) :
    enteredRows keys r ≠ [] ↔ (r.2.walk? (keys.map .key)).isSome := by
  cases h : r.2.walk? (keys.map .key) <;> simp [enteredRows, h]

theorem keyPath_eq_ok {args : List Datum} {keys : List Text} (h : keyPath args = .ok keys) :
    args = keys.map .text := by
  unfold keyPath at h
  split at h
  · cases h
  · rw [Except.mapM_eq_ok_iff] at h
    rw [← List.forall₂_eq_eq_eq, List.forall₂_map_right_iff]
    refine h.imp fun d k hk => ?_
    unfold keyText at hk
    split at hk
    · exact congrArg Datum.text (Except.ok.inj hk)
    · cases hk

theorem Restacks.of_enterObject {t u : JsonTable} (ht : t.Aligned) {args : List Datum}
    (h : (t.enterObject args).result = .ok u) :
    ∃ keys, args = keys.map .text ∧
      Restacks (t.enterObject args) t u (.concat ["enter_object(", .join "." keys, ")"])
        (enteredRows keys) fun r => (r.2.walk? (keys.map .key)).isSome := by
  obtain ⟨keys, hkeys, -⟩ := Traced.result_bind_eq_ok.mp h
  rw [Traced.result_liftM] at hkeys
  obtain ⟨w, hw, hshows⟩ := shows_enterObject ht hkeys
  obtain rfl := Except.ok.inj (h.symm.trans hw)
  rw [List.filterMap_eq_flatMap_toList] at hshows
  refine ⟨keys, keyPath_eq_ok hkeys, .of_journal ht (Descent.walk keys).children
    (fun row c => (row, c.2)) hshows (fun r => ?_) (enteredRows_ne_nil keys) ?_⟩
  · cases hwalk : r.2.walk? (keys.map .key) <;> simp [enteredRows, Descent.children, hwalk]
  · simp only [enterObject, hkeys]
    rfl

-- From each row that has the keys one row comes.
theorem Restacks.rowCount_entered {call : Traced JsonTable} {t u : JsonTable} (ht : t.Aligned)
    {verb : Text} {keys : List Text}
    (h : Restacks call t u verb (enteredRows keys) fun r => (r.2.walk? (keys.map .key)).isSome) :
    t.rowCount =
      u.rowCount + (t.rows.filter fun r => ¬(r.2.walk? (keys.map .key)).isSome).length := by
  have hentered : enteredRows keys = fun r : Row =>
      ((r.2.walk? (keys.map .key)).map (r.1, ·)).toList := rfl
  rw [← length_rows ht, ← length_rows h.aligned, h.rows, hentered,
    ← List.filterMap_eq_flatMap_toList, List.length_filterMap_eq_countP]
  simp only [Option.isSome_map, List.countP_eq_length_filter, decide_not, Bool.decide_eq_true]
  exact t.rows.length_eq_length_filter_add fun r => (r.2.walk? (keys.map .key)).isSome

-- Every call of a verb that makes rows notes how many rows there were and how many there are now,
-- and how many gave none: for the arrays and objects that are gathered, those with another value or
-- nothing in it; for keys that are entered, those without them, which are all that is missing.
theorem restacking_noted {t u : JsonTable} (ht : t.Aligned) {verb : Verb} {form : Form}
    {arguments : Arguments} (h : (verb.call form arguments t).result = .ok u) :
    ∃ bound, verb.receive form arguments = .ok bound ∧
      (verb = .gatherArray → ∃ key, bound.positions = [.text key] ∧
        Restacks (verb.call form arguments t) t u "gather_array" (elementRows key)
          fun r => r.2.kind = .array ∧ r.2.json.length ≠ 0) ∧
      (verb = .gatherKeys ∨ verb = .gatherObject → ∃ key, bound.positions = [.text key] ∧
        Restacks (verb.call form arguments t) t u "gather_keys" (memberRows key)
          fun r => r.2.kind = .object ∧ r.2.json.length ≠ 0) ∧
      (verb = .enterObject → ∃ keys, bound.positions = keys.map .text ∧
        Restacks (verb.call form arguments t) t u
          (.concat ["enter_object(", .join "." keys, ")"]) (enteredRows keys)
          (fun r => (r.2.walk? (keys.map .key)).isSome) ∧
        t.rowCount =
          u.rowCount + (t.rows.filter fun r => ¬(r.2.walk? (keys.map .key)).isSome).length) := by
  obtain ⟨bound, hbound, -⟩ := Traced.result_bind_eq_ok.mp h
  rw [Traced.result_liftM] at hbound
  rw [Verb.call_of_receive hbound] at h ⊢
  refine ⟨bound, hbound, ?_, ?_, ?_⟩
  · rintro rfl
    obtain ⟨column, hcolumn⟩ := Verb.exists_argument rfl hbound
    rw [hcolumn] at h ⊢
    obtain ⟨key, rfl, hrestacks⟩ :=
      Restacks.of_gather ht elements_fits elementRows_eq_map elementRows_ne_nil h
    exact ⟨key, rfl, hrestacks⟩
  · intro hverb
    obtain ⟨column, hcolumn⟩ : ∃ d, bound.positions = [d] := by
      rcases hverb with rfl | rfl <;> exact Verb.exists_argument rfl hbound
    have happly : verb.apply [column] bound.names t = t.gatherKeys column := by
      rcases hverb with rfl | rfl <;> rfl
    rw [hcolumn, happly] at h ⊢
    obtain ⟨key, rfl, hrestacks⟩ :=
      Restacks.of_gather ht members_fits memberRows_eq_map memberRows_ne_nil h
    exact ⟨key, rfl, hrestacks⟩
  · rintro rfl
    have happly : Verb.enterObject.apply bound.positions bound.names t =
        t.enterObject bound.positions := by
      cases bound.positions <;> rfl
    rw [happly] at h ⊢
    obtain ⟨keys, hkeys, hrestacks⟩ := Restacks.of_enterObject ht h
    exact ⟨keys, hkeys, hrestacks, hrestacks.rowCount_entered ht⟩

-- One row gives three or two, another one, and others none.
theorem restacking_noted_ragged :
    ∃ t : JsonTable, t.Aligned ∧
      (∃ u, (Verb.gatherArray.call .method {} t).result = .ok u ∧
        (Verb.gatherArray.call .method {} t).journal = [restacked "gather_array" 6 3 5]) ∧
      (∃ u, (Verb.gatherObject.call .pipe {} t).result = .ok u ∧
        (Verb.gatherObject.call .pipe {} t).journal = [restacked "gather_keys" 6 3 4]) ∧
      ∃ u, (Verb.enterObject.call .function ⟨[.text "b"], []⟩ t).result = .ok u ∧
        (Verb.enterObject.call .function ⟨[.text "b"], []⟩ t).journal =
          [restacked "enter_object(b)" 6 2 4] := by
  let t := ofDocuments [{ json := .array [.null, .logical true, .null] }, { json := .array [] },
    { json := .object [("a", .null), ("b", .logical true)] }, { json := .object [("b", .null)] },
    { json := .string "b" }, .null]
  have ht : t.Aligned := rfl
  have harray : (Verb.gatherArray.call .method {} t).result = .ok _ := rfl
  have hobject : (Verb.gatherObject.call .pipe {} t).result = .ok _ := rfl
  have henter : (Verb.enterObject.call .function ⟨[.text "b"], []⟩ t).result = .ok _ := rfl
  obtain ⟨_, -, harrays, -, -⟩ := restacking_noted ht harray
  obtain ⟨_, -, -, hobjects, -⟩ := restacking_noted ht hobject
  obtain ⟨_, hreceived, -, -, hkeys⟩ := restacking_noted ht henter
  obtain ⟨_, -, harrays⟩ := harrays rfl
  obtain ⟨_, -, hobjects⟩ := hobjects (.inr rfl)
  obtain rfl := Except.ok.inj hreceived
  obtain ⟨keys, hpositions, hentered, -⟩ := hkeys rfl
  obtain rfl : [Text.ofString "b"] = keys :=
    List.map_injective_iff.mpr (fun _ _ => Datum.text.inj) hpositions
  exact ⟨t, ht, ⟨_, harray, harrays.journal⟩, ⟨_, hobject, hobjects.journal⟩, _, henter,
    hentered.journal⟩

end JsonTable

end Unnest
