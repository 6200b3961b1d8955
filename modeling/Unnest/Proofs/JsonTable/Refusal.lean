import Unnest.Proofs.JsonTable.Drill
import Unnest.Proofs.JsonTable.Legible
import Unnest.Proofs.JsonTable.Truth

namespace Unnest

-- The types of the faults that lie in the arguments of a call.
def argumentFaults : List FaultType :=
  [.columnName, .reservedColumn, .path, .argument]

-- A check of arguments lets them pass or refuses the call.
inductive Judged (x : Except Failure α) : Prop
  | passed (a : α) : x = .ok a → Judged x
  | refused (r : Rejection) : r.type ∈ argumentFaults → x = .error (.rejected r) → Judged x

theorem judged_reject {fault : Fault} {context : Datum} (h : fault.type ∈ argumentFaults) :
    Judged (.error (.reject fault context) : Except Failure α) :=
  .refused { first := fault, context } h rfl

theorem Judged.map {x : Except Failure α} (h : Judged x) (f : α → β) : Judged (x.map f) := by
  cases h with
  | passed a ha => exact .passed (f a) (Except.map_eq_ok.mpr ⟨a, ha, rfl⟩)
  | refused r htype hr => exact .refused r htype (by rw [hr]; rfl)

theorem Judged.mapM {f : α → Except Failure β} {l : List α} (h : ∀ a ∈ l, Judged (f a)) :
    Judged (l.mapM f) := by
  induction l with
  | nil => exact .passed [] rfl
  | cons a l ih =>
      obtain ⟨ha, hl⟩ := List.forall_mem_cons.mp h
      rw [List.mapM_cons]
      cases ha with
      | refused r htype hr => exact .refused r htype (by rw [hr]; rfl)
      | passed b hb =>
          cases ih hl with
          | refused r htype hr => exact .refused r htype (by rw [hb, hr]; rfl)
          | passed bs hbs => exact .passed (b :: bs) (by rw [hb, hbs]; rfl)

-- Of steps that are judged, each from where the one before led, the fold is judged.
theorem judged_foldlM {step : β → α → Except Failure β} {p : β → Prop} {l : List α}
    (hstep : ∀ a ∈ l, ∀ b, p b → Judged (step b a) ∧ ∀ c, step b a = .ok c → p c) {b : β}
    (hb : p b) : Judged (l.foldlM step b) := by
  induction l generalizing b with
  | nil => exact .passed b rfl
  | cons a l ih =>
      obtain ⟨ha, hl⟩ := List.forall_mem_cons.mp hstep
      obtain ⟨hjudged, hkeeps⟩ := ha b hb
      rw [List.foldlM_cons]
      cases hjudged with
      | refused r htype hr => exact .refused r htype (by rw [hr]; rfl)
      | passed c hc =>
          rw [hc]
          exact ih hl (hkeeps c hc)

-- A name is good for a column or has a fault of its own.
theorem Validation.columnName_cases {name : Datum} (h : name.Spellable) :
    (∃ key, name = .text key ∧ Writable key) ∨
      ∃ found fault, columnName false name = .ok found ∧ found.faults = [fault] ∧
        fault.type ∈ argumentFaults := by
  unfold columnName
  split
  · next c cs =>
    by_cases hreserved : c :: cs = documentColumn
    · exact .inr ⟨{ faults := [.reservedColumn] }, .reservedColumn, by simp [hreserved], rfl,
        by decide⟩
    · exact .inl ⟨c :: cs, rfl, List.cons_ne_nil c cs, hreserved⟩
  · obtain ⟨shown, hshown⟩ := Datum.quoted_ok h
    exact .inr ⟨_, .columnName shown, Except.map_eq_ok.mpr ⟨shown, hshown, rfl⟩, rfl,
      List.mem_cons_self⟩

theorem Descriptor.fits_resolve (d : Descriptor) (v : Node) :
    d.kind.columnType.Fits ((d.resolve v).getD .none) := by
  unfold resolve
  split
  · exact .inl rfl
  · split
    · next hkind => exact Json.toDatum_fits hkind
    · exact .inl rfl

theorem Json.scalarText_ok {j : Json} (h : j.Spellable) : ∃ t, j.scalarText = .ok t := by
  cases j with
  | number n =>
      cases n with
      | int n => exact ⟨_, Except.map_eq_ok.mpr ⟨_, numeral_of_spellable h.integer, rfl⟩⟩
      | real x => exact ⟨_, rfl⟩
  | null | logical _ | string _ | array _ | object _ => exact ⟨_, rfl⟩

namespace JsonTable

open Validation

theorem judged_keyText (keys : List Datum) (key : Datum) : Judged (keyText keys key) := by
  unfold keyText
  split
  · exact .passed _ rfl
  · exact judged_reject (by decide : FaultType.path ∈ argumentFaults)

theorem judged_keyPath (keys : List Datum) : Judged (keyPath keys) := by
  unfold keyPath
  split
  · exact judged_reject (by decide)
  · exact .mapM fun key _ => judged_keyText keys key

theorem judged_kindNamed {type : Datum} (h : type.Spellable) : Judged (kindNamed type) := by
  unfold kindNamed
  split
  · exact .passed _ rfl
  · obtain ⟨shown, hshown⟩ := Datum.quoted_ok h
    rw [hshown]
    exact judged_reject (by decide : FaultType.argument ∈ argumentFaults)

theorem judged_kindsNamed {types : List Datum} (h : ∀ d ∈ types, d.Spellable) :
    Judged (kindsNamed types) := by
  unfold kindsNamed
  split
  · exact judged_reject (by decide)
  · exact .mapM fun d hd => judged_kindNamed (h d hd)

theorem judged_fieldDescriptors (fields : List (Text × Datum)) :
    Judged (fieldDescriptors fields) := by
  refine .mapM fun ⟨name, d⟩ _ => Judged.map ?_ _
  unfold fieldDescriptor
  split
  · exact .passed _ rfl
  · exact judged_reject (by decide : FaultType.argument ∈ argumentFaults)

-- A call does not tell tables apart: it is refused for all of them, and for one reason, or for
-- none.
inductive Uniform (run : JsonTable → Except Failure JsonTable) : Prop
  | granted : (∀ t, t.Legible → ∃ u, run t = .ok u ∧ u.Legible) → Uniform run
  | refused (r : Rejection) : r.type ∈ argumentFaults →
      (∀ t, t.Legible → run t = .error (.rejected r)) → Uniform run

theorem Uniform.congr {run other : JsonTable → Except Failure JsonTable} (hother : Uniform other)
    (h : ∀ t, t.Legible → run t = other t) : Uniform run := by
  cases hother with
  | granted hgranted => exact .granted fun t ht => h t ht ▸ hgranted t ht
  | refused r htype hr => exact .refused r htype fun t ht => (h t ht).trans (hr t ht)

theorem Uniform.bind {run later : JsonTable → Except Failure JsonTable} (hrun : Uniform run)
    (hlater : Uniform later) : Uniform fun t => run t >>= later := by
  cases hrun with
  | refused r htype hr => exact .refused r htype fun t ht => by rw [hr t ht]; rfl
  | granted hrun =>
      cases hlater with
      | refused r htype hr =>
          refine .refused r htype fun t ht => ?_
          obtain ⟨u, hu, hlegible⟩ := hrun t ht
          rw [hu]
          exact hr u hlegible
      | granted hlater =>
          refine .granted fun t ht => ?_
          obtain ⟨u, hu, hlegible⟩ := hrun t ht
          obtain ⟨w, hw, hlegible⟩ := hlater u hlegible
          exact ⟨w, Except.bind_eq_ok.mpr ⟨u, hu, hw⟩, hlegible⟩

theorem uniform_foldlM {step : JsonTable → α → Except Failure JsonTable} {l : List α}
    (h : ∀ a ∈ l, Uniform (step · a)) : Uniform (l.foldlM step) := by
  induction l with
  | nil => exact .granted fun t ht => ⟨t, rfl, ht⟩
  | cons a l ih =>
      obtain ⟨ha, hl⟩ := List.forall_mem_cons.mp h
      exact ha.bind (ih hl)

theorem withColumn_of_faults {name : Datum} {found : Findings} {fault : Fault}
    (hfound : columnName false name = .ok found) (hfaults : found.faults = [fault]) (t : JsonTable)
    (type : ColumnType) (cells : List Datum) :
    t.withColumn name type cells =
      .error (.rejected { first := fault, context := .record [("column", name)] }) := by
  have hrefused := Findings.check_of_faults hfaults (.record [("column", name)])
  simp only [withColumn, Table.withColumn, hfound, Except.ok_bind, hrefused]
  rfl

-- What is written has to fit, whatever is in the table; then only the name is in question.
theorem uniform_withColumn {column : Datum} (hcolumn : column.Spellable) {type : ColumnType}
    {cells : JsonTable → List Datum} (hcells : ∀ t : JsonTable, t.Legible →
      (cells t).length = t.nodes.length ∧ ∀ d ∈ cells t, type.Fits d) :
    Uniform fun t => t.withColumn column type (cells t) := by
  rcases columnName_cases hcolumn with ⟨key, rfl, hkey⟩ | ⟨found, fault, hfound, hfaults, htype⟩
  · refine .granted fun t ht => ?_
    obtain ⟨hlength, hfits⟩ := hcells t ht
    obtain ⟨u, hu, -⟩ := shows_withColumn ht.aligned hkey (hlength.trans ht.aligned.symm) hfits
    exact ⟨u, hu, ht.move (.write hu)⟩
  · exact .refused { first := fault, context := .record [("column", column)] } htype
      fun t _ => withColumn_of_faults hfound hfaults t type _

theorem uniform_withColumn_map {column : Datum} (hcolumn : column.Spellable) {type : ColumnType}
    {f : Node → Datum} (hf : ∀ v, type.Fits (f v)) :
    Uniform fun t => t.withColumn column type (t.nodes.map f) := by
  refine uniform_withColumn hcolumn fun t _ => ⟨List.length_map _, fun d hd => ?_⟩
  obtain ⟨v, -, rfl⟩ := List.mem_map.mp hd
  exact hf v

theorem uniform_gather {column : Datum} (hcolumn : column.Spellable) (verb : Text)
    {type : ColumnType} (way : Descent) (hfits : ∀ v, ∀ c ∈ way.children v, type.Fits c.1) :
    Uniform fun t => (t.gather verb type column way.children).result := by
  rcases columnName_cases hcolumn with ⟨key, rfl, hkey⟩ | ⟨found, fault, hfound, hfaults, htype⟩
  · refine .granted fun t ht => ?_
    obtain ⟨u, hu, -⟩ := shows_gather ht.aligned hkey hfits
    exact ⟨u, hu, ht.moves (moves_gather hu)⟩
  · refine .refused { first := fault, context := .record [("verb", .text verb)] } htype
      fun t _ => ?_
    have hrefused := Findings.require_of_faults hfaults .structural (.record [("verb", .text verb)])
    simp only [gather, checkNewColumn, hfound, Traced.result_bind, Traced.result_liftM,
      Except.ok_bind, hrefused]
    rfl

theorem uniform_enterObject (keys : List Datum) :
    Uniform fun t => (t.enterObject keys).result := by
  cases judged_keyPath keys with
  | refused r htype hr =>
      refine .refused r htype fun t _ => ?_
      simp only [enterObject, hr, Traced.result_bind, Traced.result_liftM]
      rfl
  | passed path hpath =>
      refine .granted fun t ht => ?_
      obtain ⟨u, hu, -⟩ := shows_enterObject ht.aligned hpath
      exact ⟨u, hu, ht.moves (moves_enterObject hu)⟩

theorem uniform_filterJsonTypes {types : List Datum} (h : ∀ d ∈ types, d.Spellable) :
    Uniform fun t => (t.filterJsonTypes types).result := by
  cases judged_kindsNamed h with
  | refused r htype hr =>
      refine .refused r htype fun t _ => ?_
      simp only [filterJsonTypes, hr, Traced.result_bind, Traced.result_liftM]
      rfl
  | passed kinds hkinds =>
      refine .granted fun t ht => ?_
      obtain ⟨u, hu, -⟩ := shows_filterJsonTypes ht.aligned hkinds
      exact ⟨u, hu, ht.moves (moves_filterJsonTypes hu)⟩

theorem uniform_spreadValues (fields : List (Text × Datum)) :
    Uniform fun t => (t.spreadValues fields).result := by
  cases judged_fieldDescriptors fields with
  | refused r htype hr => exact .refused r htype fun t _ => result_spreadValues_error hr t
  | passed descriptors hdescriptors =>
      rw [funext (result_spreadValues hdescriptors)]
      exact uniform_foldlM fun a _ =>
        uniform_withColumn_map (Datum.spellable_text a.1) a.2.fits_resolve

-- The spelling of a number is all that could fail.
theorem convert_ok (kind : ScalarKind) {j : Json} (h : j.Spellable) :
    ∃ d, convert kind j = .ok d ∧ kind.columnType.Fits d := by
  cases kind with
  | string =>
      obtain ⟨t, ht⟩ := Json.scalarText_ok h
      cases t with
      | none => exact ⟨.none, by rw [convert, ht]; rfl, .inl rfl⟩
      | some t => exact ⟨.text t, by rw [convert, ht]; rfl, .inr rfl⟩
  | number =>
      unfold convert
      cases j.scalarNumber with
      | none => exact ⟨.none, rfl, .inl rfl⟩
      | some n => exact ⟨.ofNumber n, rfl, by cases n <;> exact .inr rfl⟩
  | logical =>
      unfold convert
      cases j.scalarLogical with
      | none => exact ⟨.none, rfl, .inl rfl⟩
      | some b => exact ⟨.bool b, rfl, .inr rfl⟩

theorem cellOf_ok (kind : ScalarKind) (force : Bool) {j : Json} (h : j.Spellable) :
    ∃ d, cellOf kind force j = .ok d ∧ kind.columnType.Fits d := by
  rw [cellOf_bool]
  split
  · next hkind => exact ⟨_, rfl, Json.toDatum_fits hkind⟩
  · split
    · exact convert_ok kind h
    · exact ⟨.none, rfl, .inl rfl⟩

theorem scalarCell_ok (kind : ScalarKind) (force : Bool) {v : Node} (h : v.json.Spellable) :
    cellOf kind force v.json = .ok (scalarCell kind force v) ∧
      kind.columnType.Fits (scalarCell kind force v) := by
  obtain ⟨d, hd, hfits⟩ := cellOf_ok kind force h
  rw [scalarCell_of_ok hd]
  exact ⟨hd, hfits⟩

-- All there is to it is the column.
theorem appendValues_of_legible {t : JsonTable} (ht : t.Legible) (kind : ScalarKind)
    (column : Datum) (force : Bool) : t.appendValues kind column force =
      t.withColumn column kind.columnType (t.nodes.map (scalarCell kind force)) := by
  have hcells := mapM_cellOf fun v hv => (scalarCell_ok kind force (ht.spellable v hv)).1
  rw [appendValues, hcells, Except.ok_bind]

theorem scalarCell_fits {t : JsonTable} (ht : t.Legible) (kind : ScalarKind) (force : Bool) :
    (t.nodes.map (scalarCell kind force)).length = t.nodes.length ∧
      ∀ d ∈ t.nodes.map (scalarCell kind force), kind.columnType.Fits d := by
  refine ⟨List.length_map _, fun d hd => ?_⟩
  obtain ⟨v, hv, rfl⟩ := List.mem_map.mp hd
  exact (scalarCell_ok kind force (ht.spellable v hv)).2

theorem uniform_appendValues (kind : ScalarKind) {column : Datum} (hcolumn : column.Spellable)
    {force : Datum} (hforce : force.HasTruth) :
    Uniform fun t => t.appendValues kind column force := by
  obtain ⟨b, hb⟩ := hforce
  refine (uniform_withColumn hcolumn fun _ ht => scalarCell_fits ht kind b).congr fun t ht => ?_
  rw [appendValues_of_truth hb]
  exact appendValues_of_legible ht kind column b

-- Every call that binds is uniform, but for the one whose columns are named by the data, and for
-- one that asks an object for a truth that it does not have.
theorem uniform_apply {verb : Verb} (hverb : verb ≠ .spreadAll) {arguments bound : Arguments}
    (hbound : arguments.bind? verb = some bound) (hspellable : arguments.Spellable)
    (hanswered : verb.Answered bound.positions) :
    Uniform fun t => (verb.apply bound.positions bound.names t).result := by
  have hargs := (Arguments.bind?_spellable hbound hspellable).positions
  have hlength {parameters : List Verb.Parameter} (h : verb.signature = .listed parameters) :
      bound.positions.length = parameters.length := by
    rw [Arguments.bind?, h] at hbound
    obtain ⟨args, hfill, rfl⟩ := Option.map_eq_some_iff.mp hbound
    exact Arguments.length_fill hfill
  cases verb with
  | spreadAll => exact absurd rfl hverb
  | enterObject => exact uniform_enterObject _
  | filterJsonTypes => exact uniform_filterJsonTypes hargs
  | spreadValues => exact uniform_spreadValues _
  | appendValues kind =>
      obtain ⟨column, force, hpositions⟩ := List.length_eq_two.mp (hlength rfl)
      have hforce := hanswered kind column force ⟨rfl, hpositions⟩
      rw [hpositions] at hargs ⊢
      exact uniform_appendValues kind (hargs column List.mem_cons_self) hforce
  | gatherArray =>
      obtain ⟨column, hpositions⟩ := List.length_eq_one_iff.mp (hlength rfl)
      rw [hpositions] at hargs ⊢
      exact uniform_gather (hargs column List.mem_cons_self) _ .elements elements_fits
  | gatherKeys | gatherObject =>
      obtain ⟨column, hpositions⟩ := List.length_eq_one_iff.mp (hlength rfl)
      rw [hpositions] at hargs ⊢
      exact uniform_gather (hargs column List.mem_cons_self) _ .members members_fits
  | jsonTypes | jsonLengths | jsonComplexity =>
      obtain ⟨column, hpositions⟩ := List.length_eq_one_iff.mp (hlength rfl)
      rw [hpositions] at hargs ⊢
      exact uniform_withColumn_map (hargs column List.mem_cons_self) fun v => .inr rfl

end JsonTable

end Unnest
