import Unnest.Proofs.Binary64.Integer
import Unnest.Proofs.Json.Equality
import Unnest.Proofs.Table.Rows

namespace Unnest

namespace Datum

-- Cells that are equal where they are compared.
def Matches (d e : Datum) : Prop :=
  d.equals e = .ok true

theorem equalsAll_iff {xs ys : List Datum} :
    equalsAll xs ys = .ok true ↔ List.Forall₂ Matches xs ys := by
  induction xs generalizing ys with
  | nil => cases ys <;> simp [equalsAll]
  | cons x xs ih =>
      cases ys with
      | nil => simp [equalsAll]
      | cons y ys =>
          rw [equalsAll, Except.bind_eq_ok, List.forall₂_cons, ← ih]
          constructor
          · rintro ⟨same, hsame, h⟩
            cases same with
            | true => exact ⟨hsame, h⟩
            | false => cases h
          · rintro ⟨hsame, h⟩
            exact ⟨true, hsame, h⟩

theorem matches_none : Matches none none := rfl

theorem matches_text (t : Text) : (text t).Matches (text t) :=
  congrArg Except.ok (beq_self_eq_true t)

theorem int_beq_int (m n : Int) : (int m == int n) = decide (m = n) :=
  Bool.eq_iff_iff.mpr (Number.int_beq_int.trans decide_eq_true_iff.symm)

theorem matches_int_iff {m n : Int} : (int m).Matches (int n) ↔ m = n := by
  have hequals : (int m).equals (int n) = .ok (int m == int n) := rfl
  rw [Matches, hequals, Except.ok.injEq, int_beq_int, decide_eq_true_eq]

theorem matches_ofNat_iff {m n : Nat} : (ofNat m).Matches (ofNat n) ↔ m = n :=
  matches_int_iff.trans Int.ofNat_inj

end Datum

-- Scalars that are equal are equal as cells, even if only one of them is written as an integer.
theorem Json.Same.matches_toDatum {x y : Json} (h : Same x y) (hscalar : x.kind.isScalar = true) :
    x.toDatum.Matches y.toDatum := by
  cases h with
  | logical b => exact congrArg Except.ok (Number.int_beq_int.mpr rfl)
  | @number m n h => cases m <;> cases n <;> exact congrArg Except.ok h
  | string t => exact Datum.matches_text t
  | null | array _ | object _ => cases hscalar

namespace Column

def Matches (c d : Column) : Prop :=
  c.type = d.type ∧ List.Forall₂ Datum.Matches c.cells d.cells

theorem equals_iff {c d : Column} : c.equals d = .ok true ↔ c.Matches d := by
  unfold equals Matches
  split
  · next htype => simp [htype, Datum.equalsAll_iff]
  · next htype => simp [htype]

-- The cells of a row are equal as well, where there is none, too.
theorem Matches.cell {c d : Column} (h : c.Matches d) (row : Nat) :
    (c.cell row).Matches (d.cell row) := by
  have hcell := forall₂_getElem? h.2 row
  rw [Column.cell, Column.cell, List.getD_eq_getElem?_getD, List.getD_eq_getElem?_getD]
  generalize c.cells[row]? = x at hcell
  generalize d.cells[row]? = y at hcell
  cases hcell with
  | none => exact Datum.matches_none
  | some hcell => exact hcell

theorem Matches.select {c d : Column} (h : c.Matches d) (rows : List Nat) :
    (c.select rows).Matches (d.select rows) := by
  refine ⟨h.1, ?_⟩
  rw [Column.select, Column.select, List.forall₂_map_left_iff, List.forall₂_map_right_iff,
    List.forall₂_same]
  exact fun row _ => h.cell row

end Column

namespace Table

open Entries

-- Tables of the same documents whose other columns are equal one by one.
structure Matches (t u : Table) : Prop where
  documents : t.documents = u.documents
  others : Paired Column.Matches t.others u.others

theorem equalsColumns_iff {es fs : List (Text × Column)} :
    equalsColumns es fs = .ok true ↔ Paired Column.Matches es fs := by
  unfold Paired
  induction es generalizing fs with
  | nil => cases fs <;> simp [equalsColumns]
  | cons e es ih =>
      cases fs with
      | nil => simp [equalsColumns]
      | cons f fs =>
          rw [equalsColumns, List.forall₂_cons, ← ih]
          split
          · next hname =>
            rw [Except.bind_eq_ok, ← Column.equals_iff]
            constructor
            · rintro ⟨same, hsame, h⟩
              cases same with
              | true => exact ⟨⟨hname, hsame⟩, h⟩
              | false => cases h
            · rintro ⟨⟨-, hsame⟩, h⟩
              exact ⟨true, hsame, h⟩
          · next hname => exact iff_of_false nofun fun h => hname h.1.1

theorem documentCells_matches_iff {t u : Table} :
    t.documentCells.Matches u.documentCells ↔ t.documents = u.documents := by
  simp only [Column.Matches, documentCells, true_and, List.forall₂_map_left_iff,
    List.forall₂_map_right_iff, Datum.matches_ofNat_iff, List.forall₂_eq_eq_eq]

theorem equals_iff {t u : Table} : t.equals u = .ok true ↔ t.Matches u := by
  have hcolumns : Paired Column.Matches t.columns u.columns ↔ t.Matches u := by
    rw [Paired, columns, columns, List.forall₂_cons, documentCells_matches_iff]
    constructor
    · rintro ⟨⟨-, hdocuments⟩, hothers⟩
      exact ⟨hdocuments, hothers⟩
    · rintro ⟨hdocuments, hothers⟩
      exact ⟨⟨rfl, hdocuments⟩, hothers⟩
  rw [← hcolumns, equals]
  split
  · exact equalsColumns_iff
  · next hlength => exact iff_of_false (by simp) fun h => hlength h.length_eq

variable {t u : Table}

theorem Matches.select (h : t.Matches u) (rows : List Nat) :
    (t.select rows).Matches (u.select rows) := by
  refine ⟨?_, ?_⟩
  · rw [Table.select, Table.select, h.documents]
  · rw [Table.select, Table.select, Paired, List.forall₂_map_left_iff, List.forall₂_map_right_iff]
    exact h.others.imp fun e f he => ⟨he.1, he.2.select rows⟩

theorem Matches.put (h : t.Matches u) (key : Text) {c d : Column} (hcolumn : c.Matches d) :
    Matches { t with others := Entries.put key c t.others }
      { u with others := Entries.put key d u.others } :=
  ⟨h.documents, h.others.put key hcolumn⟩

end Table

end Unnest
