import Unnest.Proofs.Table.Frame
import Unnest.Proofs.Table.Overflow

namespace Unnest

namespace ColumnType

variable {type : ColumnType} {d : Datum}

-- What is the same once it is stored: a number has to be a double and no NaN.
def Kept : ColumnType → Datum → Prop
  | number, .int n => ∃ x, (Number.real x == .int n) = true
  | number, .float x => x.isNaN = false
  | _, _ => True

theorem float_beq_int (x : Binary64) (n : Int) :
    (Datum.float x == Datum.int n) = (Number.real x == .int n) := by
  cases x <;> rfl

theorem settle_beq_iff (h : type.Cell d) (hroom : type.HasRoom d) :
    (type.settle d == d) = true ↔ type.Kept d := by
  cases h with
  | missing => cases type <;> exact iff_of_true rfl trivial
  | @text t => exact iff_of_true (beq_self_eq_true t) trivial
  | integer => exact iff_of_true (Number.int_beq_int.mpr rfl) trivial
  | logical => exact iff_of_true (Number.int_beq_int.mpr rfl) trivial
  | @whole n =>
      obtain ⟨x, hx, -, hsettle⟩ := exists_settle_whole hroom
      rw [hsettle, float_beq_int]
      exact ⟨fun h => ⟨x, h⟩, fun ⟨y, hy⟩ => Binary64.equals_int_of_exists hx hy⟩
  | @real x =>
      rw [settle_real, Storage.realCell]
      split
      · next hnan => exact iff_of_false Bool.false_ne_true fun h => by cases hnan.symm.trans h
      · next hnum =>
        have hnum : x.isNaN = false := Bool.not_eq_true _ ▸ hnum
        exact iff_of_true (Number.alike_self (.real x)) hnum

theorem Cell.equals {e : Datum} (h : type.Cell d) (he : type.Cell e) :
    d.equals e = .ok (d == e) := by
  cases h <;> cases he <;> rfl

end ColumnType

namespace Datum

-- Cells of a type are compared one by one, and no comparison fails.
theorem equalsAll_map {type : ColumnType} {f : Datum → Datum} {cells : List Datum}
    (h : ∀ d ∈ cells, type.Cell d) (hf : ∀ d ∈ cells, type.Cell (f d)) :
    equalsAll (cells.map f) cells = .ok (cells.all fun d => f d == d) := by
  induction cells with
  | nil => rfl
  | cons d cells ih =>
      obtain ⟨hd, hcells⟩ := List.forall_mem_cons.mp h
      obtain ⟨hfd, hfcells⟩ := List.forall_mem_cons.mp hf
      rw [List.map_cons, equalsAll, hfd.equals hd, Except.ok_bind, List.all_cons]
      cases f d == d with
      | false => rfl
      | true => exact ih hcells hfcells

-- What is stored is imported as it is.
theorem imported_settle {type : ColumnType} {d : Datum} (h : type.Cell d)
    (hroom : type.HasRoom d) : (type.settle d).imported = .ok (type.settle d) := by
  rcases ColumnType.settled_cases h hroom with hnone | ⟨hpresent, hfits, -, -⟩
  · rw [hnone]
    rfl
  · exact hfits.imported fun hmissing => by cases hmissing.symm.trans hpresent

end Datum

-- The cells of a column have room where it is stored.
def Column.HasRoom (c : Column) : Prop :=
  ∀ d ∈ c.cells, c.type.HasRoom d

namespace Table

def HasRoom (t : Table) : Prop :=
  ∀ e ∈ t.columns, e.2.HasRoom

-- A table as it is stored.
def settled (t : Table) : Table :=
  { t with others := t.others.map fun e => (e.1, e.2.settled) }

variable {t : Table}

theorem columns_settled : t.settled.columns = t.columns.map fun e => (e.1, e.2.settled) := by
  have hnumbers : t.documentCells.settled = t.documentCells := by
    have hfits : ∀ d ∈ t.documentCells.cells, ColumnType.integer.Fits d := by
      intro d hd
      obtain ⟨n, -, rfl⟩ := List.mem_map.mp hd
      exact .inr rfl
    have hinteger : ColumnType.integer ≠ .number := by decide
    exact congrArg (Column.mk .integer) (ColumnType.map_settle_of_ne hinteger hfits)
  rw [columns, columns, List.map_cons, hnumbers]
  rfl

theorem Sound.settled (h : t.Sound) (hroom : t.HasRoom) : t.settled.Sound := by
  obtain ⟨hdocuments, hnodup, hothers⟩ := h.parts
  refine sound_of_parts hdocuments ?_ fun e he => ?_
  · simpa [Table.settled, Function.comp_def] using hnodup
  · obtain ⟨c, hc, rfl⟩ := List.mem_map.mp he
    obtain ⟨hnil, hdocument, hlength, hfits⟩ := hothers c hc
    refine ⟨hnil, hdocument, (List.length_map _).trans hlength, fun d hd => ?_⟩
    obtain ⟨cell, hcell, rfl⟩ := List.mem_map.mp hd
    exact (hfits cell hcell).cell.fits_settle (hroom c (List.mem_cons_of_mem _ hc) cell hcell)

theorem HasRoom.settled (h : t.Sound) (hroom : t.HasRoom) : t.settled.HasRoom := by
  intro e he d hd
  rw [columns_settled] at he
  obtain ⟨c, hc, rfl⟩ := List.mem_map.mp he
  obtain ⟨cell, hcell, rfl⟩ := List.mem_map.mp hd
  exact (h.cells c hc cell hcell).cell.hasRoom_settle (hroom c hc cell hcell)

theorem settled_settled (h : t.Sound) (hroom : t.HasRoom) : t.settled.settled = t.settled := by
  refine congrArg (Table.mk t.documents) ?_
  show (t.others.map _).map _ = _
  rw [List.map_map]
  refine List.map_congr_left fun c hc => ?_
  have hcolumn : c ∈ t.columns := List.mem_cons_of_mem _ hc
  refine congrArg (fun cells => (c.1, Column.mk c.2.type cells)) ?_
  show (c.2.cells.map _).map _ = _
  rw [List.map_map]
  refine List.map_congr_left fun d hd => ?_
  exact (h.cells c hcolumn d hd).cell.settle_settle (hroom c hcolumn d hd)

-- A column as a frame has it once it is stored.
def exported (e : Text × Column) : Datum × Frame.Column :=
  (.text e.1, ⟨.nullable e.2.type, e.2.cells⟩)

theorem toFrame_eq (h : t.Sound) (hroom : t.HasRoom) :
    t.toFrame = .ok (t.settled.columns.map exported) := by
  rw [toFrame, stored_eq h.cells hroom, ← columns_settled]
  rfl

theorem importColumn_exported {e : Text × Column} (hname : e.1 ≠ [])
    (hcells : ∀ d ∈ e.2.cells, d.imported = .ok d) :
    importColumn (exported e).1 (exported e).2 = .ok e := by
  have himported : e.2.cells.mapM Datum.imported = .ok e.2.cells :=
    Except.mapM_eq_ok_iff.mpr (List.forall₂_same.mpr hcells)
  exact importColumn_eq_ok_iff.mpr ⟨rfl, hname, rfl, himported⟩

-- The frame of a table in which nothing changes on import is imported as that table.
theorem result_ofFrame_exported (h : t.Sound)
    (hcells : ∀ e ∈ t.columns, ∀ d ∈ e.2.cells, d.imported = .ok d) :
    (ofFrame (t.columns.map exported)).result = .ok t := by
  have hlabels : Label.ofNames ((t.columns.map exported).map Prod.fst) =
      .ok ((t.columns.map exported).map Prod.fst) := by
    have hnames : (t.columns.map exported).map Prod.fst = t.names.map Datum.text := by
      rw [names, List.map_map, List.map_map]
      rfl
    rw [hnames, Label.ofNames_text]
  have hcolumns : (t.columns.map exported).mapM (fun e => importColumn e.1 e.2) =
      .ok t.columns := by
    rw [Except.mapM_eq_ok_iff, List.forall₂_map_left_iff, List.forall₂_same]
    exact fun e he => importColumn_exported
      (h.names_ne_nil e.1 (List.mem_map_of_mem he)) (hcells e he)
  have hnumbered : t.columns.any (fun e => e.1 = documentColumn) = true := by
    simp [columns]
  simp only [ofFrame_of_labels hlabels, ofLabelled, Traced.result_bind, Traced.result_liftM,
    Traced.result_note, Except.ok_bind, hcolumns]
  exact (congrArg ofColumns? (if_pos hnumbered)).trans h.ofColumns?_columns

-- A table is compared with what is stored of it column by column.
theorem equalsColumns_settled {columns : List (Text × Column)}
    (h : ∀ e ∈ columns, ∀ d ∈ e.2.cells, e.2.type.Fits d)
    (hroom : ∀ e ∈ columns, e.2.HasRoom) :
    equalsColumns (columns.map fun e => (e.1, e.2.settled)) columns =
      .ok (columns.all fun e => e.2.cells.all fun d => e.2.type.settle d == d) := by
  induction columns with
  | nil => rfl
  | cons e columns ih =>
      obtain ⟨he, hcolumns⟩ := List.forall_mem_cons.mp h
      obtain ⟨heRoom, hcolumnsRoom⟩ := List.forall_mem_cons.mp hroom
      have hcells : e.2.settled.equals e.2 =
          .ok (e.2.cells.all fun d => e.2.type.settle d == d) :=
        (if_pos rfl).trans (Datum.equalsAll_map (fun d hd => (he d hd).cell) fun d hd =>
          ((he d hd).cell.fits_settle (heRoom d hd)).cell)
      rw [List.map_cons, equalsColumns, if_pos rfl, hcells, Except.ok_bind, List.all_cons]
      cases e.2.cells.all fun d => e.2.type.settle d == d with
      | false => rfl
      | true => exact ih hcolumns hcolumnsRoom

theorem equals_settled (h : t.Sound) (hroom : t.HasRoom) :
    ∃ same, t.settled.equals t = .ok same ∧
      (same = true ↔ ∀ e ∈ t.columns, ∀ d ∈ e.2.cells, e.2.type.Kept d) := by
  have hlength : (t.columns.map fun e => (e.1, e.2.settled)).length = t.columns.length :=
    List.length_map _
  refine ⟨t.columns.all fun e => e.2.cells.all fun d => e.2.type.settle d == d, ?_, ?_⟩
  · rw [equals, columns_settled, if_pos hlength]
    exact equalsColumns_settled h.cells hroom
  · simp only [List.all_eq_true]
    refine forall₂_congr fun e he => forall₂_congr fun d hd => ?_
    exact ColumnType.settle_beq_iff (h.cells e he d hd).cell (hroom e he d hd)

end Table

-- How a column fails that has no room: integers that are taken for integers without a sign are
-- refused for their kind, and everything else for its size.
def Column.Refused (c : Column) (e : Failure) : Prop :=
  (e = .mismatch ∧ c.type = .integer ∧ Storage.TakenUnsigned c.cells) ∨
    (e = .overflow ∧ ¬(c.type = .integer ∧ Storage.TakenUnsigned c.cells))

theorem Column.nullable_refused {c : Column} (h : ∀ d ∈ c.cells, c.type.Fits d)
    (hroom : ¬c.HasRoom) : ∃ e, Storage.nullable c.type c.cells = .error e ∧ c.Refused e := by
  obtain ⟨d, hd, hnone⟩ : ∃ d ∈ c.cells, ¬c.type.HasRoom d := by
    simpa [HasRoom] using hroom
  rcases Storage.nullable_error h hd hnone with ⟨heq, htaken⟩ | ⟨heq, htaken⟩
  · exact ⟨_, heq, .inl ⟨rfl, htaken⟩⟩
  · exact ⟨_, heq, .inr ⟨rfl, htaken⟩⟩

namespace Table

variable {t : Table}

-- Columns that are stored have room.
theorem hasRoom_of_stored {columns stored : List (Text × Column)}
    (h : ∀ e ∈ columns, ∀ d ∈ e.2.cells, e.2.type.Fits d)
    (hstored : (columns.mapM fun (name, c) =>
      (Storage.nullable c.type c.cells).map fun cells => (name, { c with cells := cells })) =
        .ok stored) :
    ∀ e ∈ columns, e.2.HasRoom := by
  intro e he
  by_contra hroom
  obtain ⟨failure, hrefused, -⟩ := Column.nullable_refused (h e he) hroom
  obtain ⟨_, hcolumn⟩ := Except.exists_of_mapM_eq_ok hstored he
  obtain ⟨cells, hcells, -⟩ := Except.map_eq_ok.mp hcolumn
  cases hrefused.symm.trans hcells

-- A table is not exported if one of its columns has no room, and the first of them says why.
theorem toFrame_error (h : t.Sound) {e : Failure} (he : t.toFrame = .error e) :
    ∃ before c after, t.columns = before ++ c :: after ∧ (∀ b ∈ before, b.2.HasRoom) ∧
      ¬c.2.HasRoom ∧ c.2.Refused e := by
  obtain ⟨before, c, after, stored, hcolumns, hbefore, hc⟩ :=
    Except.mapM_eq_error_iff.mp (Except.map_eq_error.mp he)
  have hfits : ∀ b ∈ t.columns, ∀ d ∈ b.2.cells, b.2.type.Fits d := h.cells
  rw [hcolumns] at hfits
  have hmem : c ∈ before ++ c :: after := List.mem_append_right _ List.mem_cons_self
  have hfailed := Except.map_eq_error.mp hc
  have hroom : ¬c.2.HasRoom := fun hroom => by
    cases hfailed.symm.trans (Storage.nullable_eq (hfits c hmem) hroom)
  obtain ⟨failure, hrefused, hcause⟩ := Column.nullable_refused (hfits c hmem) hroom
  obtain rfl := Except.error.inj (hfailed.symm.trans hrefused)
  exact ⟨before, c, after, hcolumns,
    hasRoom_of_stored (fun b hb => hfits b (List.mem_append_left _ hb)) hbefore, hroom, hcause⟩

-- A table that is exported comes back with the names, the types and the number of rows that it had.
-- It is the same table if its numbers are doubles and none of them is a NaN, and what has come back
-- comes back again as it is. A table that is not exported has a column without room, and the first
-- of them is refused.
theorem frame_round_trip (h : t.Sound) :
    ((∃ e, t.toFrame = .error e) ↔ ¬t.HasRoom) ∧
    (∀ e, t.toFrame = .error e → ∃ before c after, t.columns = before ++ c :: after ∧
      (∀ b ∈ before, b.2.HasRoom) ∧ ¬c.2.HasRoom ∧ c.2.Refused e) ∧
    (t.HasRoom → ∃ frame u, t.toFrame = .ok frame ∧ (ofFrame frame).result = .ok u ∧
      (u.columns.map fun c => (c.1, c.2.type)) = (t.columns.map fun c => (c.1, c.2.type)) ∧
      u.rowCount = t.rowCount ∧
      (∃ same, u.equals t = .ok same ∧
        (same = true ↔ ∀ c ∈ t.columns, ∀ d ∈ c.2.cells, c.2.type.Kept d)) ∧
      ∃ again, u.toFrame = .ok again ∧ (ofFrame again).result = .ok u) := by
  refine ⟨⟨?_, fun hroom => ?_⟩, fun e he => toFrame_error h he, fun hroom => ?_⟩
  · rintro ⟨e, he⟩ hroom
    cases he.symm.trans (toFrame_eq h hroom)
  · cases hframe : t.toFrame with
    | error e => exact ⟨e, rfl⟩
    | ok frame =>
        obtain ⟨stored, hstored, -⟩ := Except.map_eq_ok.mp hframe
        exact absurd (hasRoom_of_stored h.cells hstored) hroom
  · have hsound := h.settled hroom
    have hroomSettled := hroom.settled h
    have himported : ∀ e ∈ t.settled.columns, ∀ d ∈ e.2.cells, d.imported = .ok d := by
      rw [columns_settled]
      intro e he d hd
      obtain ⟨c, hc, rfl⟩ := List.mem_map.mp he
      obtain ⟨cell, hcell, rfl⟩ := List.mem_map.mp hd
      exact Datum.imported_settle (h.cells c hc cell hcell).cell (hroom c hc cell hcell)
    refine ⟨_, t.settled, toFrame_eq h hroom, result_ofFrame_exported hsound himported, ?_, rfl,
      equals_settled h hroom, _, toFrame_eq hsound hroomSettled, ?_⟩
    · rw [columns_settled, List.map_map]
      rfl
    · rw [settled_settled h hroom]
      exact result_ofFrame_exported hsound himported

-- A number that is no double, a NaN and an integer of the machine beside a missing cell.
def measured : Table where
  documents := [1, 2]
  others := [("n", ⟨.number, [.int (2 ^ 53 + 1), .float (.nan 0)]⟩),
    ("i", ⟨.integer, [.none, .int (2 ^ 63 - 1)]⟩)]

theorem sound_measured : measured.Sound := by
  refine sound_of_parts (by decide) (by decide) ?_
  simp only [measured, List.forall_mem_cons]
  refine ⟨⟨by decide, by decide, rfl, ?_⟩, ⟨by decide, by decide, rfl, ?_⟩, nofun⟩
  · exact List.forall_mem_cons.mpr ⟨.inr rfl, List.forall_mem_cons.mpr ⟨.inr rfl, nofun⟩⟩
  · exact List.forall_mem_cons.mpr ⟨.inl rfl, List.forall_mem_cons.mpr ⟨.inr rfl, nofun⟩⟩

theorem hasRoom_measured : measured.HasRoom := by
  have hone : ColumnType.integer.HasRoom (.int 1) := ⟨by decide, by decide⟩
  have htwo : ColumnType.integer.HasRoom (.int 2) := ⟨by decide, by decide⟩
  have hwhole : ColumnType.number.HasRoom (.int (2 ^ 53 + 1)) := by
    obtain ⟨negative, rank, hx⟩ := Binary64.ofInt?_eq_some (n := 2 ^ 53 + 1) (by decide)
    exact ColumnType.hasRoom_whole hx
  have hmachine : ColumnType.integer.HasRoom (.int (2 ^ 63 - 1)) := ⟨by decide, by decide⟩
  simp only [HasRoom, Column.HasRoom, columns, measured, documentCells, List.map_cons, List.map_nil,
    List.forall_mem_cons]
  exact ⟨⟨hone, htwo, List.forall_mem_nil _⟩, ⟨hwhole, trivial, List.forall_mem_nil _⟩,
    ⟨trivial, hmachine, List.forall_mem_nil _⟩, List.forall_mem_nil _⟩

-- The NaN is lost on the way.
theorem frame_round_trip_measured : measured.Sound ∧ measured.HasRoom ∧ ∃ frame u,
    measured.toFrame = .ok frame ∧ (ofFrame frame).result = .ok u ∧
      u.equals measured = .ok false := by
  obtain ⟨-, -, hround⟩ := frame_round_trip sound_measured
  obtain ⟨frame, u, hframe, hu, -, -, ⟨same, hsame, hkept⟩, -⟩ := hround hasRoom_measured
  refine ⟨sound_measured, hasRoom_measured, frame, u, hframe, hu, hsame.trans (congrArg _ ?_)⟩
  refine Bool.eq_false_iff.mpr fun htrue => Bool.noConfusion (?_ : true = false)
  exact hkept.mp htrue _ (List.mem_cons_of_mem _ List.mem_cons_self) (.float (.nan 0))
    (List.mem_cons_of_mem _ List.mem_cons_self)

-- An integer that would have room without a sign.
def unsigned : Table where
  documents := [1]
  others := [("n", ⟨.integer, [.int (2 ^ 63)]⟩)]

theorem sound_unsigned : unsigned.Sound := by
  refine sound_of_parts (by decide) (by decide) ?_
  simp only [unsigned, List.forall_mem_cons]
  exact ⟨⟨by decide, by decide, rfl, List.forall_mem_cons.mpr ⟨.inr rfl, nofun⟩⟩, nofun⟩

-- It is refused for its kind and not for its size.
theorem toFrame_unsigned : unsigned.Sound ∧ ¬unsigned.HasRoom ∧
    unsigned.toFrame = .error .mismatch := by
  refine ⟨sound_unsigned, fun hroom => ?_, rfl⟩
  have hcell : ColumnType.integer.HasRoom (.int (2 ^ 63)) :=
    hroom _ (List.mem_cons_of_mem _ List.mem_cons_self) _ List.mem_cons_self
  exact hcell.2.false

end Table

end Unnest
