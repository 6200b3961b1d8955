import Unnest.Proofs.Binary64.Rounding
import Unnest.Proofs.Table.Frame
import Unnest.Proofs.Table.Gate

namespace Unnest

namespace Datum

-- The cell of a table for one of a frame. The missing ones, and no others, become `Datum.none`,
-- scalars of the machine become plain ones, an object that stands for a single value gives way to
-- it, and everything else stays as it is.
inductive Imports : Datum → Datum → Prop where
  | none : Imports .none .none
  | nan {x : Binary64} (h : x.isNaN = true) : Imports (.float x) .none
  | complexNaN {re im : Binary64} (h : (re.isNaN || im.isNaN) = true) :
      Imports (.foreign (.complex re im)) .none
  | marked {c : Custom} (h : c.missing = .given true) : Imports (.foreign (.custom c)) .none
  | integer (n : Int) : Imports (.machineInt n) (.int n)
  | logical (b : Bool) : Imports (.machineBool b) (.bool b)
  | opened {c : Custom} {item : Content} (hpresent : c.missing = .given false)
      (hitem : c.item = some (.given item)) : Imports (.foreign (.custom c)) item.toDatum
  | kept {c : Custom} (hpresent : c.missing = .given false) (hitem : c.item = Option.none) :
      Imports (.foreign (.custom c)) (.foreign (.custom c))
  | other {d : Datum} (hnone : d ≠ .none) (hnan : ∀ x, d = .float x → x.isNaN = false)
      (hcomplex : ∀ re im, d = .foreign (.complex re im) → (re.isNaN || im.isNaN) = false)
      (hinteger : ∀ n, d ≠ .machineInt n) (hlogical : ∀ b, d ≠ .machineBool b)
      (hcustom : ∀ c, d ≠ .foreign (.custom c)) : Imports d d

-- An object that does not say whether it is missing, or does not give the value that it stands for.
inductive Defies : Datum → Failure → Prop where
  | several {c : Custom} {isEmpty : Bool} (h : c.missing = .ambiguous isEmpty) :
      Defies (.foreign (.custom c)) (.noSingleTruth isEmpty)
  | silent {c : Custom} (h : c.missing = .refused) : Defies (.foreign (.custom c)) .mismatch
  | manifold {c : Custom} {isEmpty : Bool} (hpresent : c.missing = .given false)
      (hitem : c.item = some (.ambiguous isEmpty)) :
      Defies (.foreign (.custom c)) (.noSingleTruth isEmpty)
  | closed {c : Custom} (hpresent : c.missing = .given false) (hitem : c.item = some .refused) :
      Defies (.foreign (.custom c)) .mismatch

theorem imported_custom (c : Custom) : (foreign (.custom c)).imported =
    c.missing.get >>= fun isMissing =>
      if isMissing then .ok none
      else
        match c.item with
        | some item => item.get.map Content.toDatum
        | Option.none => .ok (foreign (.custom c)) :=
  rfl

-- An object is imported as one of the cases tells, or it defies the import.
theorem custom_cases (c : Custom) :
    (∃ e, (foreign (.custom c)).imported = .ok e ∧ (foreign (.custom c)).Imports e) ∨
      ∃ e, (foreign (.custom c)).imported = .error e ∧ (foreign (.custom c)).Defies e := by
  rw [imported_custom]
  cases hmissing : c.missing with
  | given isMissing =>
      cases isMissing with
      | true => exact .inl ⟨_, rfl, .marked hmissing⟩
      | false =>
          cases hitem : c.item with
          | none => exact .inl ⟨_, rfl, .kept hmissing hitem⟩
          | some item =>
              cases item with
              | given item => exact .inl ⟨_, rfl, .opened hmissing hitem⟩
              | ambiguous isEmpty => exact .inr ⟨_, rfl, .manifold hmissing hitem⟩
              | refused => exact .inr ⟨_, rfl, .closed hmissing hitem⟩
  | ambiguous isEmpty => exact .inr ⟨_, rfl, .several hmissing⟩
  | refused => exact .inr ⟨_, rfl, .silent hmissing⟩

theorem plain_cases {d : Datum} (hcustom : ∀ c, d ≠ .foreign (.custom c)) :
    ∃ e, d.imported = .ok e ∧ d.Imports e := by
  cases hmissing : d.isMissing with
  | true =>
      refine ⟨_, imported_of_isMissing hmissing, ?_⟩
      cases d with
      | none => exact .none
      | float x => exact .nan hmissing
      | foreign f =>
          cases f with
          | complex re im => exact .complexNaN hmissing
          | custom c => exact absurd rfl (hcustom c)
          | bytes | bytearray | set | object => cases hmissing
      | _ => cases hmissing
  | false =>
      refine ⟨_, imported_of_present hcustom hmissing, ?_⟩
      cases d with
      | none => cases hmissing
      | machineInt n => exact .integer n
      | machineBool b => exact .logical b
      | float x =>
          refine .other ?_ (fun y hy => Datum.float.inj hy ▸ hmissing) ?_ ?_ ?_ ?_ <;> simp
      | foreign f =>
          have hcomplex : ∀ re im, Datum.foreign f = .foreign (.complex re im) →
              (re.isNaN || im.isNaN) = false := by
            rintro re im ⟨⟩
            exact hmissing
          refine .other ?_ ?_ hcomplex ?_ ?_ hcustom <;> simp
      | _ => refine .other ?_ ?_ ?_ ?_ ?_ ?_ <;> simp

theorem imported_cases (d : Datum) :
    (∃ e, d.imported = .ok e ∧ d.Imports e) ∨ ∃ e, d.imported = .error e ∧ d.Defies e := by
  by_cases h : ∃ c, d = .foreign (.custom c)
  · obtain ⟨c, rfl⟩ := h
    exact custom_cases c
  · exact .inl (plain_cases fun c hc => h ⟨c, hc⟩)

theorem imports_iff {d e : Datum} : d.Imports e ↔ d.imported = .ok e := by
  constructor
  · intro h
    cases h with
    | none | integer | logical => rfl
    | nan h | complexNaN h => exact imported_of_isMissing h
    | marked h => rw [imported_custom, h]; rfl
    | opened hpresent hitem => simp only [imported_custom, hpresent, hitem]; rfl
    | kept hpresent hitem => simp only [imported_custom, hpresent, hitem]; rfl
    | other hnone hnan hcomplex hinteger hlogical hcustom =>
        have hmissing : d.isMissing = false := by
          cases d with
          | none => exact absurd rfl hnone
          | float x => exact hnan x rfl
          | foreign f =>
              cases f with
              | complex re im => exact hcomplex re im rfl
              | custom c => exact absurd rfl (hcustom c)
              | bytes | bytearray | set | object => rfl
          | _ => rfl
        rw [imported_of_present hcustom hmissing]
        cases d with
        | machineInt n => exact absurd rfl (hinteger n)
        | machineBool b => exact absurd rfl (hlogical b)
        | _ => rfl
  · intro h
    rcases d.imported_cases with ⟨f, hf, himports⟩ | ⟨f, hf, -⟩
    · obtain rfl := Except.ok.inj (hf.symm.trans h)
      exact himports
    · cases hf.symm.trans h

theorem defies_iff {d : Datum} {e : Failure} : d.Defies e ↔ d.imported = .error e := by
  constructor
  · intro h
    cases h with
    | several h | silent h => rw [imported_custom, h]; rfl
    | manifold hpresent hitem | closed hpresent hitem =>
        simp only [imported_custom, hpresent, hitem]
        rfl
  · intro h
    rcases d.imported_cases with ⟨f, hf, -⟩ | ⟨f, hf, hdefies⟩
    · cases hf.symm.trans h
    · obtain rfl := Except.error.inj (hf.symm.trans h)
      exact hdefies

theorem forall₂_imports_iff {cells out : List Datum} :
    List.Forall₂ Imports cells out ↔ cells.mapM imported = .ok out := by
  rw [Except.mapM_eq_ok_iff]
  exact ⟨fun h => h.imp fun _ _ => imports_iff.mp, fun h => h.imp fun _ _ => imports_iff.mpr⟩

end Datum

namespace Table

-- The type that is told from some cells is the first that all of them fit.
def TellsType (cells : List Datum) (type : ColumnType) : Prop :=
  (∀ d ∈ cells, type.Holds d) ∧
    ∃ before after, [ColumnType.string, .logical, .integer, .number] = before ++ type :: after ∧
      ∀ other ∈ before, ∃ d ∈ cells, ¬other.Holds d

-- A column of a frame as one of a table. It has the type that it declares, or else the type that is
-- told from its cells.
structure Becomes (given : Datum × Frame.Column) (e : Text × Column) : Prop where
  name : given.1 = .text e.1
  cells : List.Forall₂ Datum.Imports given.2.cells e.2.cells
  type : given.2.format.type? = some e.2.type ∨
    given.2.format = .loose ∧ TellsType e.2.cells e.2.type

-- A column of a frame that has a name and cells that can be imported, and a type unless its cells
-- are too different.
structure Importable (given : Datum × Frame.Column) : Prop where
  name : ∃ key, given.1 = .text key ∧ key ≠ []
  cells : ∀ d ∈ given.2.cells, ∃ e, d.Imports e
  type : given.2.format = .loose →
    ∃ type : ColumnType, ∀ d ∈ given.2.cells, ∃ e, d.Imports e ∧ type.Holds e

-- What keeps a column of a frame from being imported. Its name comes before its cells, and if it is
-- no text it is shown, unless an integer in it is too long. The cells are imported one by one
-- before a type is told from them.
inductive Offends : Datum × Frame.Column → Failure → Prop where
  | name {name : Datum} {shown : Text} (c : Frame.Column)
      (hname : ∀ key, name = .text key → key = []) (hshown : name.quoted = .ok shown) :
      Offends (name, c) (.reject (.columnName shown))
  | long {name : Datum} (c : Frame.Column) (hlong : ¬name.Spellable) :
      Offends (name, c) (.longNumeral none)
  | cell {key : Text} {format : Storage.Format} {before after : List Datum} {d : Datum}
      {e : Failure} (hkey : key ≠ []) (hbefore : ∀ b ∈ before, ∃ i, b.Imports i)
      (hdefies : d.Defies e) : Offends (.text key, ⟨format, before ++ d :: after⟩) e
  | cells {key : Text} {c : Frame.Column} (hkey : key ≠ []) (hformat : c.format = .loose)
      (himports : ∀ d ∈ c.cells, ∃ e, d.Imports e)
      (hmixed : ∀ type : ColumnType, ∃ d ∈ c.cells, ∀ e, d.Imports e → ¬type.Holds e) :
      Offends (.text key, c) (.reject (.mixedCells key) (.record [("column", .text key)]))

-- If a frame has numbers of documents, they are all there, and they are positive integers.
def Numbered (frame : Frame) : Prop :=
  ∀ given ∈ frame, given.1 = .text documentColumn → ∃ e, Becomes given e ∧
    e.2.type = .integer ∧ ∀ d ∈ e.2.cells, ∃ n : Int, d = .int n ∧ 1 ≤ n

-- Why a frame is not imported. The first column that cannot be imported decides, and only if all
-- can be are the numbers of the documents looked at.
inductive NotImported : Frame → Failure → Prop where
  | column {before after : Frame} {given : Datum × Frame.Column} {e : Failure}
      (hbefore : ∀ b ∈ before, Importable b) (hgiven : Offends given e) :
      NotImported (before ++ given :: after) e
  | numbers {frame : Frame} (hcolumns : ∀ given ∈ frame, Importable given)
      (hnumbers : ¬Numbered frame) : NotImported frame (.reject .documents)

-- The table for a frame with so many rows. The numbers of the documents come first, and where there
-- are none the rows are counted from one. The other columns stand in the order of the frame.
inductive Imported (size : Nat) : Frame → Table → Prop where
  | kept {before after : Frame} {numbers : Datum × Frame.Column} {t : Table}
      (hnumbers : numbers.1 = .text documentColumn)
      (hcolumns : List.Forall₂ Becomes (numbers :: (before ++ after)) t.columns) :
      Imported size (before ++ numbers :: after) t
  | counted {frame : Frame} {t : Table} {others : List (Text × Column)}
      (hnumbers : ∀ given ∈ frame, given.1 ≠ .text documentColumn)
      (hcolumns : t.columns =
        (documentColumn, ⟨.integer, (List.range' 1 size).map Datum.ofNat⟩) :: others)
      (hothers : List.Forall₂ Becomes frame others) : Imported size frame t

section Column

variable {name : Datum} {key : Text} {c : Frame.Column} {type : ColumnType}

theorem all_fit_iff {cells : List Datum} :
    (cells.all fun cell => cell.isNone || type.admits cell) = true ↔
      ∀ d ∈ cells, type.Holds d := by
  simp only [List.all_eq_true, Bool.or_eq_true_iff, Datum.isNone_iff, ColumnType.holds_iff_fits,
    ColumnType.Fits]

theorem infer?_eq_some_iff {cells : List Datum} :
    infer? cells = some type ↔ TellsType cells type := by
  simp only [infer?, List.find?_eq_some_iff_append, all_fit_iff, inferred, TellsType,
    Bool.not_eq_true', ← Bool.not_eq_true, not_forall, exists_prop]

theorem infer?_eq_none_iff {cells : List Datum} :
    infer? cells = none ↔ ∀ type : ColumnType, ∃ d ∈ cells, ¬type.Holds d := by
  have hinferred (type : ColumnType) : type ∈ inferred := by cases type <;> decide
  simp only [infer?, List.find?_eq_none, all_fit_iff, not_forall, exists_prop]
  exact ⟨fun h type => h type (hinferred type), fun h type _ => h type⟩

-- A loose column is the one that declares no type.
theorem type?_eq_none_iff {format : Storage.Format} : format.type? = none ↔ format = .loose := by
  cases format <;> simp [Storage.Format.type?]

theorem importColumn_iff_becomes {e : Text × Column} :
    importColumn name c = .ok e ↔ Becomes (name, c) e ∧ e.1 ≠ [] := by
  rw [importColumn_eq_ok_iff, Option.or_eq_some_iff, type?_eq_none_iff, infer?_eq_some_iff]
  constructor
  · rintro ⟨hname, hkey, htype, hcells⟩
    exact ⟨⟨hname, Datum.forall₂_imports_iff.mpr hcells, htype⟩, hkey⟩
  · rintro ⟨⟨hname, himported, htype⟩, hkey⟩
    exact ⟨hname, hkey, htype, Datum.forall₂_imports_iff.mp himported⟩

theorem exists_imports {cells out : List Datum} (h : cells.mapM Datum.imported = .ok out) :
    ∀ d ∈ cells, ∃ e, d.Imports e := by
  intro d hd
  obtain ⟨e, he⟩ := Except.exists_of_mapM_eq_ok h hd
  exact ⟨e, Datum.imports_iff.mpr he⟩

theorem offends_of_importColumn {e : Failure} (h : importColumn name c = .error e) :
    Offends (name, c) e := by
  rcases Validation.named_or_unnamed name with ⟨key, rfl, hkey⟩ | hname
  · rw [importColumn_text hkey] at h
    rcases Except.bind_eq_error.mp h with hcell | ⟨cells, hcells, h⟩
    · obtain ⟨before, d, after, out, hsplit, hbefore, hd⟩ := Except.mapM_eq_error_iff.mp hcell
      obtain ⟨format, _⟩ := c
      obtain rfl : _ = before ++ d :: after := hsplit
      exact .cell hkey (exists_imports hbefore) (Datum.defies_iff.mpr hd)
    · split at h
      · cases h
      · next htype =>
        obtain rfl := Except.error.inj h
        rw [Option.or_eq_none_iff, type?_eq_none_iff, infer?_eq_none_iff] at htype
        refine .cells hkey htype.1 (exists_imports hcells) fun type => ?_
        obtain ⟨e, he, hholds⟩ := htype.2 type
        obtain ⟨d, hd, himported⟩ := Except.exists_of_mem_mapM hcells he
        refine ⟨d, hd, fun other hother => ?_⟩
        obtain rfl := Except.ok.inj (himported.symm.trans (Datum.imports_iff.mp hother))
        exact hholds
  · rw [importColumn_unnamed hname] at h
    rcases Except.bind_eq_error.mp h with hquoted | ⟨shown, hshown, h⟩
    · obtain rfl := Datum.quoted_eq_error hquoted
      refine .long c fun hspellable => ?_
      obtain ⟨shown, hshown⟩ := Datum.quoted_ok hspellable
      cases hquoted.symm.trans hshown
    · obtain rfl := Except.error.inj h
      exact .name c hname hshown

theorem Offends.not_importable {given : Datum × Frame.Column} {e : Failure}
    (h : Offends given e) : ¬Importable given := by
  rintro ⟨⟨key, hkey, hnil⟩, hcells, htype⟩
  cases h with
  | name c hname hshown => exact hnil (hname key hkey)
  | long c hlong =>
      obtain rfl : _ = Datum.text key := hkey
      exact hlong (Datum.spellable_text key)
  | @cell _ _ _ _ d e _ _ hdefies =>
      obtain ⟨i, hi⟩ := hcells d (List.mem_append_right _ List.mem_cons_self)
      cases (Datum.imports_iff.mp hi).symm.trans (Datum.defies_iff.mp hdefies)
  | cells _ hformat _ hmixed =>
      obtain ⟨type, hall⟩ := htype hformat
      obtain ⟨d, hd, hnone⟩ := hmixed type
      obtain ⟨e, he, hholds⟩ := hall d hd
      exact hnone e he hholds

theorem importable_iff {given : Datum × Frame.Column} :
    Importable given ↔ ∃ e, importColumn given.1 given.2 = .ok e := by
  constructor
  · intro h
    cases himport : importColumn given.1 given.2 with
    | ok e => exact ⟨e, rfl⟩
    | error e => exact absurd h (offends_of_importColumn himport).not_importable
  · rintro ⟨e, he⟩
    obtain ⟨hbecomes, hnil⟩ := importColumn_iff_becomes.mp he
    have hcells := Datum.forall₂_imports_iff.mp hbecomes.cells
    refine ⟨⟨e.1, hbecomes.name, hnil⟩, exists_imports hcells, fun hloose => ?_⟩
    rcases hbecomes.type with htype | ⟨-, htold, -⟩
    · cases (type?_eq_none_iff.mpr hloose).symm.trans htype
    · refine ⟨e.2.type, fun d hd => ?_⟩
      obtain ⟨i, hmem, himported⟩ := Except.exists_mem_of_mapM_eq_ok hcells hd
      exact ⟨i, Datum.imports_iff.mpr himported, htold i hmem⟩

end Column

section Columns

variable {size : Nat} {frame : Frame} {columns : List (Text × Column)}

theorem names_of_becomes (h : List.Forall₂ Becomes frame columns) :
    frame.map Prod.fst = (columns.map Prod.fst).map Datum.text := by
  induction h with
  | nil => rfl
  | cons hgiven _ ih => rw [List.map_cons, List.map_cons, List.map_cons, hgiven.name, ih]

variable (hcolumns : (frame.mapM fun given => importColumn given.1 given.2) = .ok columns)

include hcolumns

theorem becomes_columns : List.Forall₂ Becomes frame columns :=
  (Except.mapM_eq_ok_iff.mp hcolumns).imp fun _ _ h => (importColumn_iff_becomes.mp h).1

theorem nodup_columns (hnames : (frame.map Prod.fst).Nodup) : (columns.map Prod.fst).Nodup := by
  rw [names_of_becomes (becomes_columns hcolumns)] at hnames
  exact hnames.of_map _

theorem length_columns (hsize : ∀ given ∈ frame, given.2.cells.length = size) :
    ∀ e ∈ columns, e.2.cells.length = size := by
  intro e he
  obtain ⟨given, hgiven, himport⟩ := Except.exists_of_mem_mapM hcolumns he
  obtain ⟨hbecomes, -⟩ := importColumn_iff_becomes.mp himport
  exact hbecomes.cells.length_eq.symm.trans (hsize given hgiven)

-- With distinct names, the numbers of the documents are in one column.
theorem numbered_iff {numbers : Column} (hnames : (frame.map Prod.fst).Nodup)
    (hnumbers : (documentColumn, numbers) ∈ columns) :
    Numbered frame ↔ numbers.documents?.isSome = true := by
  obtain ⟨given, hgiven, himport⟩ := Except.exists_of_mem_mapM hcolumns hnumbers
  obtain ⟨hbecomes, hnil⟩ := importColumn_iff_becomes.mp himport
  rw [Column.isSome_documents?_iff]
  constructor
  · intro h
    obtain ⟨e, he, htype, hcells⟩ := h given hgiven hbecomes.name
    have hkey : e.1 ≠ [] := by
      rw [← Datum.text.inj (hbecomes.name.symm.trans he.name)]
      exact hnil
    obtain rfl := Except.ok.inj (himport.symm.trans (importColumn_iff_becomes.mpr ⟨he, hkey⟩))
    exact ⟨htype, hcells⟩
  · rintro ⟨htype, hcells⟩ other hother hname
    obtain rfl := List.inj_on_of_nodup_map hnames hgiven hother (hbecomes.name.trans hname.symm)
    exact ⟨_, hbecomes, htype, hcells⟩

theorem result_of_columns : (ofLabelled size frame).result =
    ofColumns? (if documentColumn ∈ columns.map Prod.fst then columns
      else (documentColumn, (forDocuments size).documentCells) :: columns) := by
  have hany : columns.any (fun e => e.1 = documentColumn) = true ↔
      documentColumn ∈ columns.map Prod.fst := by
    simp only [List.any_eq_true, decide_eq_true_eq, List.mem_map]
  simp only [ofLabelled, Traced.result_bind, Traced.result_liftM, Traced.result_note,
    Except.ok_bind, hcolumns, hany]

-- The numbers of the documents go first, wherever they stand.
theorem imported_kept {numbers : Column} {documents : List Nat}
    (hnames : (frame.map Prod.fst).Nodup) (hnumbers : (documentColumn, numbers) ∈ columns)
    (hdocuments : numbers.documents? = some documents) :
    Imported size frame ⟨documents, columns.filter fun e => e.1 != documentColumn⟩ := by
  obtain ⟨rfl, -⟩ := Column.documents?_eq_some hdocuments
  have hbecomes := becomes_columns hcolumns
  have hnodup := nodup_columns hcolumns hnames
  obtain ⟨left, right, rfl⟩ := List.append_of_mem hnumbers
  have hbefore := List.forall₂_take_append _ _ _ hbecomes
  obtain ⟨given, after, hgiven, hafter, hframe⟩ :=
    List.forall₂_cons_right_iff.mp (List.forall₂_drop_append _ _ _ hbecomes)
  rw [Entries.filter_ne_key hnodup, ← List.take_append_drop left.length frame, hframe]
  exact .kept hgiven.name (.cons hgiven (List.rel_append hbefore hafter))

theorem not_named_document (hnumbers : documentColumn ∉ columns.map Prod.fst) :
    ∀ given ∈ frame, given.1 ≠ .text documentColumn := by
  intro given hgiven hname
  have hmem : Datum.text documentColumn ∈ frame.map Prod.fst :=
    hname ▸ List.mem_map_of_mem hgiven
  rw [names_of_becomes (becomes_columns hcolumns)] at hmem
  obtain ⟨key, hkey, heq⟩ := List.mem_map.mp hmem
  exact hnumbers (Datum.text.inj heq ▸ hkey)

-- Without numbers of documents, the rows are counted.
theorem result_counted (hnames : (frame.map Prod.fst).Nodup)
    (hsize : ∀ given ∈ frame, given.2.cells.length = size)
    (hnumbers : documentColumn ∉ columns.map Prod.fst) :
    (ofLabelled size frame).result = .ok ⟨List.range' 1 size, columns⟩ := by
  have hcount : (forDocuments size).documentCells.cells.length = size :=
    (List.length_map _).trans List.length_range'
  have hlengths : ∀ e ∈ columns, e.2.cells.length =
      (forDocuments size).documentCells.cells.length := fun e he =>
    (length_columns hcolumns hsize e he).trans hcount.symm
  have hnodup : (((documentColumn, (forDocuments size).documentCells) :: columns).map
      Prod.fst).Nodup := List.nodup_cons.mpr ⟨hnumbers, nodup_columns hcolumns hnames⟩
  have hdocuments : (forDocuments size).documentCells.documents? = some (List.range' 1 size) :=
    Column.documents?_of_pos fun n hn => (List.mem_range'_1.mp hn).1
  have hothers : ((documentColumn, (forDocuments size).documentCells) :: columns).filter
      (fun e => e.1 != documentColumn) = columns :=
    @Entries.filter_ne_key _ _ _ _ [] columns documentColumn _ hnodup
  rw [result_of_columns hcolumns, if_neg hnumbers, ofColumns?_of_mem hnodup List.mem_cons_self
    (List.forall_mem_cons.mpr ⟨rfl, hlengths⟩), hdocuments, hothers]

-- Once all columns are imported, the numbers of the documents decide.
theorem imported_or_not (hnames : (frame.map Prod.fst).Nodup)
    (hsize : ∀ given ∈ frame, given.2.cells.length = size) :
    (Numbered frame ∧ ∃ t, (ofLabelled size frame).result = .ok t ∧ t.rowCount = size ∧
        Imported size frame t) ∨
      ¬Numbered frame ∧ (ofLabelled size frame).result = .error (.reject .documents) := by
  by_cases hmem : documentColumn ∈ columns.map Prod.fst
  · obtain ⟨⟨_, numbers⟩, hnumbers, rfl⟩ := List.mem_map.mp hmem
    have hlengths := length_columns hcolumns hsize
    have hcount : numbers.cells.length = size := hlengths _ hnumbers
    rw [result_of_columns hcolumns, if_pos hmem, numbered_iff hcolumns hnames hnumbers,
      ofColumns?_of_mem (nodup_columns hcolumns hnames) hnumbers fun e he =>
        (hlengths e he).trans hcount.symm]
    cases hdocuments : numbers.documents? with
    | none => exact .inr ⟨Bool.false_ne_true, rfl⟩
    | some documents =>
        refine .inl ⟨rfl, _, rfl, ?_, imported_kept hcolumns hnames hnumbers hdocuments⟩
        obtain ⟨rfl, -⟩ := Column.documents?_eq_some hdocuments
        exact (List.length_map _).symm.trans hcount
  · have hnone := not_named_document hcolumns hmem
    exact .inl ⟨fun given hgiven hname => absurd hname (hnone given hgiven), _,
      result_counted hcolumns hnames hsize hmem, List.length_range',
      .counted hnone rfl (becomes_columns hcolumns)⟩

end Columns

variable {size : Nat} {frame : Frame}

theorem result_of_importColumns_error {e : Failure}
    (h : (frame.mapM fun given => importColumn given.1 given.2) = .error e) :
    (ofLabelled size frame).result = .error e ∧ ¬(∀ given ∈ frame, Importable given) ∧
      NotImported frame e := by
  refine ⟨?_, ?_⟩
  · simp only [ofLabelled, Traced.result_bind, Traced.result_liftM, h]
    rfl
  · obtain ⟨before, given, after, imported, rfl, hbefore, hgiven⟩ :=
      Except.mapM_eq_error_iff.mp h
    have hoffends := offends_of_importColumn hgiven
    have hmem : given ∈ before ++ given :: after := List.mem_append_right _ List.mem_cons_self
    exact ⟨fun hall => hoffends.not_importable (hall given hmem), .column (fun b hb =>
      importable_iff.mpr (Except.exists_of_mapM_eq_ok hbefore hb)) hoffends⟩

-- A frame is imported exactly if each of its columns can be, and the numbers of the documents, if
-- there are any, are positive integers. The first column that cannot be imported is the reason if
-- it is not.
theorem ofLabelled_exact (hnames : (frame.map Prod.fst).Nodup)
    (hsize : ∀ given ∈ frame, given.2.cells.length = size) :
    ((∃ t, (ofLabelled size frame).result = .ok t) ↔
      (∀ given ∈ frame, Importable given) ∧ Numbered frame) ∧
    (∀ t, (ofLabelled size frame).result = .ok t → t.rowCount = size ∧ Imported size frame t) ∧
    ∀ e, (ofLabelled size frame).result = .error e → NotImported frame e := by
  cases hcolumns : frame.mapM fun given => importColumn given.1 given.2 with
  | error e =>
      obtain ⟨hresult, hnot, hreason⟩ := @result_of_importColumns_error size frame e hcolumns
      rw [hresult]
      refine ⟨iff_of_false nofun fun h => hnot h.1, nofun, fun _ h => ?_⟩
      obtain rfl := Except.error.inj h
      exact hreason
  | ok columns =>
      have hall : ∀ given ∈ frame, Importable given := fun given hgiven =>
        importable_iff.mpr (Except.exists_of_mapM_eq_ok hcolumns hgiven)
      obtain ⟨hnumbered, t, ht, himported⟩ | ⟨hnot, hresult⟩ :=
        imported_or_not hcolumns hnames hsize
      · rw [ht]
        refine ⟨iff_of_true ⟨t, rfl⟩ ⟨hall, hnumbered⟩, fun u hu => ?_, nofun⟩
        obtain rfl := Except.ok.inj hu
        exact himported
      · rw [hresult]
        refine ⟨iff_of_false nofun fun h => hnot h.2, nofun, fun _ h => ?_⟩
        obtain rfl := Except.error.inj h
        exact .numbers hall hnot

-- Numbers of the machine and of documents, with missing cells between them.
def ragged : Frame :=
  [("b", ⟨.loose, [.machineInt 3, .float (.nan 0), .int 4]⟩),
    (documentColumn, ⟨.nullable .integer, [.int 2, .int 2, .int 1]⟩),
    ("c", ⟨.loose, [.machineBool true, .none, .bool false]⟩)]

-- An integer next to a logical, before a name that is no text.
def mixed : Frame :=
  [("a", ⟨.machine .integer, [.int 1, .int 2]⟩), ("m", ⟨.loose, [.bool true, .int 1]⟩),
    (.int 7, ⟨.loose, [.none, .none]⟩)]

theorem ofLabelled_exact_ragged :
    (∃ t, (ofLabelled 3 ragged).result = .ok t ∧ t.names = [documentColumn, "b", "c"] ∧
      (t.columns.map fun e => e.2.type) = [.integer, .integer, .logical] ∧
      t.rowCount = 3 ∧ Imported 3 ragged t) ∧
    ∃ r, (ofLabelled 2 mixed).result = .error (.rejected r) ∧ r.type = .columnType ∧
      r.message = "Column 'm' mixes cell types that no single column type can hold" ∧
      NotImported mixed (.rejected r) := by
  have htexts : (["b", documentColumn, "c"] : List Text).Nodup := by decide
  have hragged : (ragged.map Prod.fst).Nodup :=
    List.Nodup.map (f := Datum.text) (fun _ _ => Datum.text.inj) htexts
  have hmixed : (mixed.map Prod.fst).Nodup := by
    have hne : ("a" : Text) ≠ "m" := by decide
    simp [mixed, hne]
  obtain ⟨-, himported, -⟩ := @ofLabelled_exact 3 ragged hragged (by decide)
  obtain ⟨-, -, hreason⟩ := @ofLabelled_exact 2 mixed hmixed (by decide)
  exact ⟨⟨_, rfl, rfl, rfl, himported _ rfl⟩, _, rfl, rfl, rfl, hreason _ rfl⟩

-- A name that is an integer with one digit too many.
def endless : Frame :=
  [("a", ⟨.machine .integer, [.int 1]⟩),
    (.int (10 ^ maxNumeralDigits), ⟨.machine .integer, [.int 1]⟩)]

theorem importColumn_long {n : Int} (h : ¬Spellable n) (c : Frame.Column) :
    importColumn (.int n) c = .error (.longNumeral none) := by
  have hname : ∀ key, Datum.int n = .text key → key = [] := nofun
  rw [importColumn_unnamed hname, Datum.quoted, numeral_of_not_spellable h]
  rfl

-- It cannot even be shown, and so the frame is neither imported nor refused.
theorem ofLabelled_endless :
    (endless.map Prod.fst).Nodup ∧ (∀ given ∈ endless, given.2.cells.length = 1) ∧
      (ofLabelled 1 endless).result = .error (.longNumeral none) ∧
      ¬((∃ t, (ofLabelled 1 endless).result = .ok t) ∨
        ∃ r, (ofLabelled 1 endless).result = .error (.rejected r)) := by
  have hcolumns : (endless.mapM fun given => importColumn given.1 given.2) =
      .error (.longNumeral none) :=
    Except.mapM_eq_error_iff.mpr ⟨[_], _, [], [_], rfl, rfl,
      importColumn_long (not_spellable_pow le_rfl) _⟩
  obtain ⟨hresult, -⟩ := @result_of_importColumns_error 1 endless _ hcolumns
  refine ⟨by simp [endless], by decide, hresult, ?_⟩
  rw [hresult]
  rintro (⟨t, ht⟩ | ⟨r, hr⟩)
  · cases ht
  · cases hr

end Table

end Unnest
