import Unnest.Proofs.Binary64.Integer
import Unnest.Proofs.Table.Sound
import Unnest.Proofs.Table.Storage
import Unnest.Table.Frame

namespace Unnest

namespace Datum

theorem isNone_iff (d : Datum) : d.isNone = true ↔ d = .none := by
  cases d <;> simp [isNone]

-- What is marked as missing is missing in the table.
theorem imported_of_isMissing {d : Datum} (h : d.isMissing = true) : d.imported = .ok .none := by
  have hmissing : d.missing = .ok true := by
    unfold missing
    split
    · next c =>
      have hmarked : c.missing = .given true := by simpa [isMissing] using h
      rw [hmarked]
      rfl
    · rw [h]
  rw [imported, hmissing]
  rfl

-- Everything else stays, though not in the format of a machine. Only objects may behave otherwise.
theorem imported_of_present {d : Datum} (hplain : ∀ c, d ≠ .foreign (.custom c))
    (h : d.isMissing = false) : d.imported = .ok d.unboxed := by
  have hmissing : d.missing = .ok false := by
    unfold missing
    split
    · next c => exact absurd rfl (hplain c)
    · rw [h]
  have hopened : d.opened = .ok d.unboxed := by
    unfold opened
    split
    · next c => exact absurd rfl (hplain c)
    · rfl
  rw [imported, hmissing]
  exact hopened

end Datum

theorem ColumnType.fits_imported {type : ColumnType} {d e : Datum}
    (h : d.isMissing = true ∨ type.stores d = true) (he : d.imported = .ok e) : type.Fits e := by
  by_cases hmissing : d.isMissing = true
  · obtain rfl := Except.ok.inj ((Datum.imported_of_isMissing hmissing).symm.trans he)
    exact .inl rfl
  · have hstores := h.resolve_left hmissing
    have hplain : ∀ c, d ≠ .foreign (.custom c) := by
      rintro c rfl
      cases type <;> cases hstores
    rw [Datum.imported_of_present hplain (Bool.not_eq_true _ ▸ hmissing)] at he
    obtain rfl := Except.ok.inj he
    refine .inr ?_
    cases type <;> cases d <;> first | rfl | cases hstores

-- What a column of a table holds is imported as it is, apart from a NaN.
theorem ColumnType.Fits.imported {type : ColumnType} {d : Datum} (h : type.Fits d)
    (hnan : d.isMissing = true → d = .none) : d.imported = .ok d := by
  rcases h with rfl | hadmits
  · rfl
  · have hplain : ∀ c, d ≠ .foreign (.custom c) := by
      rintro c rfl
      cases type <;> cases hadmits
    have hpresent : d.isMissing = false := by
      refine Bool.eq_false_iff.mpr fun hmissing => ?_
      obtain rfl := hnan hmissing
      cases type <;> cases hadmits
    rw [Datum.imported_of_present hplain hpresent]
    cases type <;> cases d <;> first | rfl | cases hadmits

namespace Frame

-- A column that declares a type delivers missing cells and values of that type. A loose column may
-- deliver anything.
def Column.Delivered (c : Column) : Prop :=
  ∀ type, c.format.type? = some type → Storage.Holds type c.cells

def Delivered (frame : Frame) : Prop :=
  ∀ e ∈ frame, e.2.Delivered

-- Cells without sequences of sequences, which the machine would store as lists of numbers.
def Column.IsFlat (c : Column) : Prop :=
  (∃ type, c.format = .machine type) → (Datum.list c.cells).shape.sizes.length ≤ 2

theorem asReal_int {n : Int} (h : fitsSigned n = true) : ∃ x, (Datum.int n).asReal = .float x := by
  have hbound : n.natAbs ≤ 2 ^ 64 := by
    have hrange := fitsSigned_iff.mp h
    omega
  obtain ⟨negative, rank, hx⟩ := Binary64.ofInt?_eq_some hbound
  refine ⟨.finite negative rank, ?_⟩
  simp only [Datum.asReal, Datum.unboxed, hx]
  rfl

-- A column as it is stored. Integers of the machine have 64 bits, and none of them is missing.
structure Column.Stored (c : Column) : Prop where
  delivered : c.Delivered
  machine : c.format = .machine .integer →
    ∀ d ∈ c.cells, ∃ n, d = .int n ∧ fitsSigned n = true

-- Where integers have to make room for missing cells, they become doubles.
theorem Column.Stored.fill {c : Column} (h : c.Stored) (size : Nat) :
    (c.fill size).Delivered := by
  have hmissing {type : ColumnType} {count : Nat} :
      Storage.Holds type (List.replicate count Datum.none) := by
    intro d hd
    obtain rfl := List.eq_of_mem_replicate hd
    exact .inl rfl
  unfold Column.fill
  split
  · exact h.delivered
  · simp only
    split
    · next hformat =>
      intro type htype d hd
      obtain rfl := Option.some.inj htype
      rcases List.mem_append.mp hd with hd | hd
      · obtain ⟨cell, hcell, rfl⟩ := List.mem_map.mp hd
        obtain ⟨n, rfl, hn⟩ := h.machine hformat cell hcell
        obtain ⟨x, hx⟩ := asReal_int hn
        rw [hx]
        exact .inr rfl
      · exact hmissing d hd
    · intro type htype
      cases htype
    · intro type htype d hd
      rcases List.mem_append.mp hd with hd | hd
      · exact h.delivered type htype d hd
      · exact hmissing d hd

theorem sizes_length_pos (shapes : List Shape) : 0 < (Shape.ofElements shapes).sizes.length := by
  cases shapes with
  | nil => exact Nat.one_pos
  | cons s shapes => exact Nat.succ_pos _

theorem Column.stored_store {c d : Column} (hflat : c.IsFlat) (h : c.store = .ok d) :
    d.Stored := by
  obtain ⟨format, cells⟩ := c
  cases format with
  | loose =>
      obtain rfl := Except.ok.inj h
      refine ⟨fun type htype => ?_, fun hformat => ?_⟩
      · cases htype
      · cases hformat
  | nullable type =>
      obtain ⟨stored, hstored, rfl⟩ := Except.map_eq_ok.mp h
      refine ⟨fun declared hdeclared => ?_, fun hformat => ?_⟩
      · obtain rfl := Option.some.inj hdeclared
        exact Storage.holds_nullable hstored
      · cases hformat
  | machine type =>
      have hle : (Datum.list cells).shape.sizes.length ≤ 2 := hflat ⟨type, rfl⟩
      have hpos : 0 < (Datum.list cells).shape.sizes.length := by
        rw [Datum.shape]
        exact sizes_length_pos _
      simp only [store, storeMachine] at h
      split at h
      · obtain ⟨stored, hstored, hnext⟩ := Except.bind_eq_ok.mp h
        have hlevels : (Datum.list cells).shape.sizes.length = 1 ∨
            (Datum.list cells).shape.sizes.length = 2 := by omega
        rcases hlevels with hone | htwo
        · rw [hone] at hnext
          obtain rfl := Except.ok.inj hnext
          refine ⟨fun declared hdeclared => ?_, fun hformat => ?_⟩
          · obtain rfl := Option.some.inj hdeclared
            exact Storage.holds_machine hstored
          · obtain rfl := Storage.Format.machine.inj hformat
            exact Storage.machineIntegers_ok hstored
        · rw [htwo] at hnext
          obtain rfl := Except.ok.inj hnext
          refine ⟨fun declared hdeclared => ?_, fun hformat => ?_⟩
          · cases hdeclared
          · cases hformat
      · cases h

-- Unless sequences nest, a frame delivers what its columns declare.
theorem delivered_ofColumns {columns : List (Datum × Column)} {frame : Frame}
    (hflat : ∀ e ∈ columns, e.2.IsFlat) (h : ofColumns columns = .ok frame) :
    frame.Delivered := by
  obtain ⟨stored, hstored, hframe⟩ := Except.bind_eq_ok.mp h
  obtain rfl := Except.ok.inj hframe
  have hcolumns : ∀ e ∈ stored, e.2.Stored := by
    intro e he
    obtain ⟨given, hgiven, hstore⟩ := Except.exists_of_mem_mapM hstored he
    obtain ⟨c, hc, hkey⟩ := Except.bind_eq_ok.mp hstore
    split at hkey
    · obtain rfl := Except.ok.inj hkey
      exact Column.stored_store (hflat given hgiven) hc
    · cases hkey
  intro e he
  obtain ⟨named, hnamed, rfl⟩ := List.mem_map.mp he
  exact (Entries.forall_ofList hcolumns named hnamed).fill _

end Frame

namespace Table

-- Cells fit the type that is told from them.
theorem infer?_fits {cells : List Datum} {type : ColumnType} (h : infer? cells = some type) :
    ∀ d ∈ cells, type.Fits d := by
  intro d hd
  rw [infer?, List.find?_eq_some_iff_append] at h
  exact (Bool.or_eq_true_iff.mp (List.all_eq_true.mp h.1 d hd)).imp_left d.isNone_iff.mp

theorem importColumn_unnamed {name : Datum} (hname : ∀ key, name = .text key → key = [])
    (c : Frame.Column) :
    importColumn name c = name.quoted >>= fun shown => .error (.reject (.columnName shown)) := by
  unfold importColumn
  rw [Validation.columnName_of_unnamed hname]
  cases name.quoted with
  | error e => rfl
  | ok shown => rfl

-- Once a column has a name, only its cells and its type can be wanting.
theorem importColumn_text {key : Text} (hkey : key ≠ []) (c : Frame.Column) :
    importColumn (.text key) c = c.cells.mapM Datum.imported >>= fun cells =>
      match c.format.type?.or (infer? cells) with
      | some type => .ok (key, ⟨type, cells⟩)
      | none => .error (.reject (.mixedCells key) (.record [("column", .text key)])) := by
  unfold importColumn
  simp only [Validation.columnName_of_ne_nil hkey, Option.orElse_eq_orElse, Option.orElse_eq_or]
  rfl

theorem importColumn_eq_ok_iff {name : Datum} {c : Frame.Column} {e : Text × Column} :
    importColumn name c = .ok e ↔ name = .text e.1 ∧ e.1 ≠ [] ∧
      c.format.type?.or (infer? e.2.cells) = some e.2.type ∧
      c.cells.mapM Datum.imported = .ok e.2.cells := by
  obtain ⟨key, type, cells⟩ := e
  constructor
  · intro h
    rcases Validation.named_or_unnamed name with ⟨key, rfl, hkey⟩ | hname
    · rw [importColumn_text hkey] at h
      obtain ⟨found, hfound, h⟩ := Except.bind_eq_ok.mp h
      split at h
      · next type htype =>
        obtain ⟨rfl, rfl, rfl⟩ := Except.ok.inj h
        exact ⟨rfl, hkey, htype, hfound⟩
      · cases h
    · rw [importColumn_unnamed hname] at h
      obtain ⟨_, -, h⟩ := Except.bind_eq_ok.mp h
      cases h
  · rintro ⟨rfl, hkey, htype, hcells⟩
    rw [importColumn_text hkey, hcells, Except.ok_bind, htype]

theorem importColumn_ok {name : Datum} {c : Frame.Column} {e : Text × Column} (hc : c.Delivered)
    (h : importColumn name c = .ok e) : e.1 ≠ [] ∧ ∀ d ∈ e.2.cells, e.2.type.Fits d := by
  obtain ⟨-, hkey, htype, hcells⟩ := importColumn_eq_ok_iff.mp h
  refine ⟨hkey, fun d hd => ?_⟩
  rcases Option.or_eq_some_iff.mp htype with htype | ⟨-, htype⟩
  · obtain ⟨cell, hcell, himported⟩ := Except.exists_of_mem_mapM hcells hd
    exact ColumnType.fits_imported (hc _ htype cell hcell) himported
  · exact infer?_fits htype d hd

-- What a table is exported as can be imported again.
theorem delivered_toFrame {t : Table} {frame : Frame} (h : t.toFrame = .ok frame) :
    frame.Delivered := by
  obtain ⟨stored, hstored, rfl⟩ := Except.map_eq_ok.mp h
  intro e he type htype
  obtain ⟨⟨name, c⟩, hc, rfl⟩ := List.mem_map.mp he
  obtain ⟨given, -, hgiven⟩ := Except.exists_of_mem_mapM hstored hc
  obtain ⟨cells, hcells, hcolumn⟩ := Except.map_eq_ok.mp hgiven
  obtain ⟨rfl, rfl⟩ := Prod.mk.inj hcolumn
  obtain rfl := Option.some.inj htype
  exact Storage.holds_nullable hcells

theorem sound_ofLabelled {rowCount : Nat} {frame : Frame} {t : Table} (hframe : frame.Delivered)
    (h : (ofLabelled rowCount frame).result = .ok t) : t.Sound := by
  simp only [ofLabelled, Traced.result_bind_eq_ok, Traced.result_liftM] at h
  obtain ⟨columns, hcolumns, _, _, htable⟩ := h
  have himported : ∀ e ∈ columns, e.1 ≠ [] ∧ ∀ d ∈ e.2.cells, e.2.type.Fits d := by
    intro e he
    obtain ⟨named, hmem, himport⟩ := Except.exists_of_mem_mapM hcolumns he
    exact importColumn_ok (hframe named hmem) himport
  refine sound_ofColumns? (fun e he => ?_) htable
  split at he
  · exact himported e he
  · rcases List.mem_cons.mp he with rfl | he
    · have hnil : documentColumn ≠ [] := by decide
      refine ⟨hnil, fun d hd => ?_⟩
      obtain ⟨n, -, rfl⟩ := List.mem_map.mp hd
      exact .inr rfl
    · exact himported e he

-- Names that are labels already are not changed before the import.
theorem ofFrame_of_labels {frame : Frame}
    (h : Label.ofNames (frame.map Prod.fst) = .ok (frame.map Prod.fst)) :
    ofFrame frame = ofLabelled frame.rowCount frame := by
  have hlabelled : (frame.map Prod.fst).zip (frame.map Prod.snd) = frame :=
    (List.zip_of_prod rfl rfl).symm
  rw [ofFrame, h]
  show (pure _ : Traced (List Datum)) >>= _ = _
  rw [pure_bind, hlabelled]

theorem sound_ofFrame {frame : Frame} {t : Table} (hframe : frame.Delivered)
    (h : (ofFrame frame).result = .ok t) : t.Sound := by
  obtain ⟨names, -, h⟩ := Traced.result_bind_eq_ok.mp h
  refine sound_ofLabelled (fun e he => ?_) h
  obtain ⟨given, hgiven, heq⟩ := List.mem_map.mp (List.of_mem_zip he).2
  exact heq ▸ hframe given hgiven

end Table

end Unnest
