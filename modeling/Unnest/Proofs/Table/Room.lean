import Unnest.Proofs.Binary64.Integer
import Unnest.Proofs.Table.Storage
import Unnest.Proofs.Validation
import Unnest.Table.Frame

namespace Unnest

namespace ColumnType

-- What the cells of a type are, one by one.
inductive Cell : ColumnType → Datum → Prop
  | missing {type : ColumnType} : type.Cell .none
  | text {t : Text} : string.Cell (.text t)
  | integer {n : Int} : integer.Cell (.int n)
  | whole {n : Int} : number.Cell (.int n)
  | real {x : Binary64} : number.Cell (.float x)
  | logical {b : Bool} : logical.Cell (.bool b)

-- What a storage has room for: integers of 64 bits, and numbers that have a finite double.
def HasRoom : ColumnType → Datum → Prop
  | integer, .int n => -2 ^ 63 ≤ n ∧ n < 2 ^ 63
  | number, .int n => n.natAbs < 2 ^ 1024 - 2 ^ 970
  | _, _ => True

-- What is stored for a cell: the nearest double for a number, and nothing for a NaN.
def settle (type : ColumnType) (d : Datum) : Datum :=
  if d.isMissing then .none
  else
    match type, d with
    | number, .int n => ((Binary64.ofInt? n).map .float).getD d
    | _, d => d

variable {type : ColumnType} {d : Datum}

theorem Fits.cell (h : type.Fits d) : type.Cell d := by
  rcases h with rfl | h
  · exact .missing
  · cases type <;> cases d <;> first | constructor | cases h

theorem Cell.unboxed (h : type.Cell d) : d.unboxed = d := by
  cases h <;> rfl

theorem Cell.shape (h : type.Cell d) : d.shape = .scalar := by
  cases h <;> rfl

theorem Cell.scalars (h : type.Cell d) : d.scalars = [d] := by
  cases h <;> rfl

theorem settle_of_isMissing (h : d.isMissing = true) : type.settle d = .none := if_pos h

theorem settle_of_ne (htype : type ≠ number) (h : type.Cell d) : type.settle d = d := by
  cases h with
  | whole | real => exact absurd rfl htype
  | _ => rfl

theorem map_settle_of_ne {cells : List Datum} (htype : type ≠ number)
    (h : ∀ d ∈ cells, type.Fits d) : cells.map type.settle = cells := by
  rw [List.map_congr_left fun d hd => settle_of_ne htype (h d hd).cell]
  exact List.map_id' cells

theorem hasRoom_whole {n : Int} {x : Binary64} (h : Binary64.ofInt? n = some x) :
    number.HasRoom (.int n) := by
  refine Nat.lt_of_not_le fun hlarge => ?_
  cases h.symm.trans (Binary64.ofInt?_eq_none_iff.mpr hlarge)

theorem exists_settle_whole {n : Int} (h : number.HasRoom (.int n)) :
    ∃ x, Binary64.ofInt? n = some x ∧ x.isNaN = false ∧ number.settle (.int n) = .float x := by
  cases hx : Binary64.ofInt? n with
  | none => exact absurd h (Nat.not_lt.mpr (Binary64.ofInt?_eq_none_iff.mp hx))
  | some x =>
      obtain ⟨rank, -, rfl⟩ := Binary64.finite_of_ofInt? hx
      refine ⟨_, rfl, rfl, ?_⟩
      simp only [settle, Datum.isMissing, hx]
      rfl

theorem settle_real (x : Binary64) : number.settle (.float x) = Storage.realCell x := rfl

-- What is stored is missing or present, and it fits the type and finds room again.
theorem settled_cases (h : type.Cell d) (hroom : type.HasRoom d) :
    type.settle d = .none ∨ (type.settle d).isMissing = false ∧
      type.Fits (type.settle d) ∧ type.HasRoom (type.settle d) ∧
      type.settle (type.settle d) = type.settle d := by
  cases h with
  | missing => exact .inl rfl
  | whole =>
      obtain ⟨x, -, hnan, hx⟩ := exists_settle_whole hroom
      rw [hx]
      refine .inr ⟨hnan, .inr rfl, trivial, ?_⟩
      rw [settle_real, Storage.realCell, hnan]
      rfl
  | @real x =>
      rw [settle_real, Storage.realCell]
      split
      · exact .inl rfl
      · next hnan =>
        have hnan : x.isNaN = false := Bool.not_eq_true _ ▸ hnan
        refine .inr ⟨hnan, .inr rfl, trivial, ?_⟩
        rw [settle_real, Storage.realCell, hnan]
        rfl
  | text => exact .inr ⟨rfl, .inr rfl, trivial, rfl⟩
  | integer => exact .inr ⟨rfl, .inr rfl, hroom, rfl⟩
  | logical => exact .inr ⟨rfl, .inr rfl, trivial, rfl⟩

theorem hasRoom_none : type.HasRoom .none := by
  cases type <;> trivial

theorem Cell.fits_settle (h : type.Cell d) (hroom : type.HasRoom d) :
    type.Fits (type.settle d) :=
  (settled_cases h hroom).elim .inl fun hpresent => hpresent.2.1

theorem Cell.hasRoom_settle (h : type.Cell d) (hroom : type.HasRoom d) :
    type.HasRoom (type.settle d) :=
  (settled_cases h hroom).elim (fun hnone => hnone ▸ hasRoom_none) fun hpresent => hpresent.2.2.1

-- What is stored stays as it is where it is stored again.
theorem Cell.settle_settle (h : type.Cell d) (hroom : type.HasRoom d) :
    type.settle (type.settle d) = type.settle d := by
  rcases settled_cases h hroom with hnone | hpresent
  · rw [hnone]
    rfl
  · exact hpresent.2.2.2

end ColumnType

namespace Storage

open ColumnType

variable {type : ColumnType} {cells : List Datum}

theorem map_unboxed (h : ∀ d ∈ cells, type.Fits d) : cells.map Datum.unboxed = cells := by
  rw [List.map_congr_left fun d hd => (h d hd).cell.unboxed]
  exact List.map_id' cells

theorem shapes_eq (h : ∀ d ∈ cells, type.Fits d) : ∀ s ∈ Datum.shapes cells, s = .scalar := by
  induction cells with
  | nil => exact nofun
  | cons d cells ih =>
      obtain ⟨hd, hcells⟩ := List.forall_mem_cons.mp h
      exact List.forall_mem_cons.mpr ⟨hd.cell.shape, ih hcells⟩

theorem shape_list (h : ∀ d ∈ cells, type.Fits d) :
    (Datum.list cells).shape = ⟨[cells.length], true⟩ := by
  have hshapes := shapes_eq h
  rw [Datum.shape]
  cases cells with
  | nil => rfl
  | cons d cells =>
      rw [Shape.ofElements_of_forall_eq rfl hshapes (List.cons_ne_nil _ _), Datum.length_shapes]
      rfl

theorem scalarsOf_eq (h : ∀ d ∈ cells, type.Fits d) : Datum.scalarsOf cells = cells := by
  induction cells with
  | nil => rfl
  | cons d cells ih =>
      obtain ⟨hd, hcells⟩ := List.forall_mem_cons.mp h
      rw [Datum.scalarsOf, hd.cell.scalars, ih hcells]
      rfl

theorem flat_eq (h : ∀ d ∈ cells, type.Fits d) (store : List Datum → Except Failure (List Datum)) :
    flat store cells = store cells := by
  simp only [flat, shape_list h, map_unboxed h]
  rfl

theorem present_eq {store : Datum → Except Failure Datum}
    (h : ∀ d ∈ cells, d.isMissing = false → store d = .ok (type.settle d)) :
    present store cells = .ok (cells.map type.settle) := by
  rw [present, Except.mapM_eq_ok_iff, List.forall₂_map_right_iff, List.forall₂_same]
  intro d hd
  split
  · next hmissing => rw [settle_of_isMissing hmissing]
  · next hpresent => exact h d hd (Bool.not_eq_true _ ▸ hpresent)

theorem texts_eq (h : ∀ d ∈ cells, ColumnType.string.Fits d) :
    texts cells = .ok (cells.map ColumnType.string.settle) := by
  refine present_eq fun d hd hpresent => ?_
  cases (h d hd).cell with
  | missing => cases hpresent
  | text => rfl

theorem logicals_eq (h : ∀ d ∈ cells, ColumnType.logical.Fits d) :
    logicals cells = .ok (cells.map ColumnType.logical.settle) := by
  have hlogical : (cells.filter fun d => !d.isMissing).all Datum.isLogical = true := by
    refine List.all_eq_true.mpr fun d hd => ?_
    obtain ⟨hmem, hpresent⟩ := List.mem_filter.mp hd
    cases (h d hmem).cell with
    | missing => cases hpresent
    | logical => rfl
  simp only [logicals, shape_list h, scalarsOf_eq h, map_unboxed h, hlogical]
  refine present_eq fun d hd _ => ?_
  rw [settle_of_ne (by decide) (h d hd).cell]

-- What holds of the layouts of all cells, and is kept where two of them are joined, holds of the
-- layout of the list.
theorem Layout.ofList_closed {p : Layout → Prop} (hjoin : ∀ k l, p k → p l → p (k.join l))
    {d : Datum} {ds : List Datum} (h : ∀ e ∈ d :: ds, p (ofDatum e)) : p (ofList (d :: ds)) := by
  obtain ⟨hd, hds⟩ := List.forall_mem_cons.mp h
  show p (ds.foldl (fun layout d => layout.join (ofDatum d)) (ofDatum d))
  generalize ofDatum d = layout at hd
  clear h
  induction ds generalizing layout with
  | nil => exact hd
  | cons e ds ih =>
      obtain ⟨he, hds⟩ := List.forall_mem_cons.mp hds
      exact ih hds _ (hjoin _ _ hd he)

theorem layout_numbers (h : ∀ d ∈ cells, ColumnType.number.Fits d) :
    Layout.ofList cells ≠ .text ∧ Layout.ofList cells ≠ .complex := by
  cases cells with
  | nil => decide
  | cons d ds =>
      refine Layout.ofList_closed (p := fun k => k ≠ .text ∧ k ≠ .complex) ?_ fun e he => ?_
      · intro k l
        cases k <;> cases l <;> decide
      · cases (h e he).cell with
        | missing => decide
        | real => exact ⟨nofun, nofun⟩
        | @whole n =>
            simp only [Layout.ofDatum]
            split
            · decide
            · split <;> decide

theorem realOf_int {n : Int} {x : Binary64} (h : Binary64.ofInt? n = some x) :
    realOf (.int n) = .ok x := by
  delta realOf
  dsimp only
  rw [h]

theorem numbers_of_fits (h : ∀ d ∈ cells, ColumnType.number.Fits d) :
    numbers cells = present (fun d => (realOf d).map realCell) cells := by
  obtain ⟨htext, hcomplex⟩ := layout_numbers h
  unfold numbers
  split
  · next hlayout => exact absurd hlayout htext
  · next hlayout => exact absurd hlayout hcomplex
  · rfl

theorem numbers_eq (h : ∀ d ∈ cells, ColumnType.number.Fits d)
    (hroom : ∀ d ∈ cells, ColumnType.number.HasRoom d) :
    numbers cells = .ok (cells.map ColumnType.number.settle) := by
  rw [numbers_of_fits h]
  refine present_eq fun d hd hpresent => ?_
  cases (h d hd).cell with
  | missing => cases hpresent
  | real => rfl
  | @whole n =>
      obtain ⟨x, hx, hnan, hsettle⟩ := exists_settle_whole (hroom _ hd)
      rw [realOf_int hx, hsettle, Except.map, realCell, hnan]
      rfl

-- Every integer of the machine is cut off to itself.
theorem truncated_int {n : Int} (h : -2 ^ 63 ≤ n ∧ n < 2 ^ 63) : truncated (.int n) = .ok n :=
  if_pos (fitsSigned_iff.mpr h)

theorem truncatedCells_eq (h : ∀ d ∈ cells, ColumnType.integer.Fits d)
    (hroom : ∀ d ∈ cells, ColumnType.integer.HasRoom d) :
    truncatedCells cells = .ok (cells.map ColumnType.integer.settle) := by
  refine present_eq fun d hd hpresent => ?_
  cases (h d hd).cell with
  | missing => cases hpresent
  | integer =>
      rw [truncated_int (hroom _ hd)]
      rfl

theorem layout_integers {d : Datum} {ds : List Datum}
    (h : ∀ e ∈ d :: ds, ColumnType.integer.Fits e)
    (hroom : ∀ e ∈ d :: ds, ColumnType.integer.HasRoom e) :
    Layout.ofList (d :: ds) = .signed ∨ Layout.ofList (d :: ds) = .loose := by
  refine Layout.ofList_closed (p := fun k => k = .signed ∨ k = .loose) ?_ fun e he => ?_
  · intro k l
    cases k <;> cases l <;> decide
  · cases (h e he).cell with
    | missing => exact .inr rfl
    | integer => exact .inl (if_pos (fitsSigned_iff.mpr (hroom _ he)))

theorem integers_eq (h : ∀ d ∈ cells, ColumnType.integer.Fits d)
    (hroom : ∀ d ∈ cells, ColumnType.integer.HasRoom d) :
    integers cells = .ok (cells.map ColumnType.integer.settle) := by
  cases cells with
  | nil => rfl
  | cons d ds =>
      have htruncated := truncatedCells_eq h hroom
      rcases layout_integers h hroom with hlayout | hlayout
      · rw [integers, hlayout]
        exact htruncated
      · -- beside missing cells, integers have to be the same once their fractions are cut off
        rw [integers, hlayout]
        simp only [looseIntegers, htruncated, Except.ok_bind]
        refine if_pos ((Bool.or_eq_true _ _).mpr (.inr (List.all_eq_true.mpr fun e he => ?_)))
        rw [map_settle_of_ne (by decide) h] at he
        obtain ⟨i, hi, rfl⟩ := List.getElem_of_mem he
        simp only [List.getElem_zip]
        split
        · next n hn =>
          rw [hn]
          exact Number.int_beq_int.mpr rfl
        · rfl

-- Cells that have room are stored.
theorem nullable_eq (h : ∀ d ∈ cells, type.Fits d) (hroom : ∀ d ∈ cells, type.HasRoom d) :
    nullable type cells = .ok (cells.map type.settle) := by
  cases type with
  | string =>
      rw [nullable, map_unboxed h]
      exact texts_eq h
  | number => exact (flat_eq h numbers).trans (numbers_eq h hroom)
  | integer => exact (flat_eq h integers).trans (integers_eq h hroom)
  | logical => exact logicals_eq h

end Storage

-- A column as it is stored.
def Column.settled (c : Column) : Column :=
  { c with cells := c.cells.map c.type.settle }

-- A table is stored if all its cells have room.
theorem Table.stored_eq {t : Table} (h : ∀ e ∈ t.columns, ∀ d ∈ e.2.cells, e.2.type.Fits d)
    (hroom : ∀ e ∈ t.columns, ∀ d ∈ e.2.cells, e.2.type.HasRoom d) :
    t.stored = .ok (t.columns.map fun e => (e.1, e.2.settled)) := by
  rw [stored, Except.mapM_eq_ok_iff, List.forall₂_map_right_iff, List.forall₂_same]
  rintro ⟨name, c⟩ he
  simp only [Storage.nullable_eq (h _ he) (hroom _ he)]
  rfl

end Unnest
