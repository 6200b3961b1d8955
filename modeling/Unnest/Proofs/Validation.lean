import Unnest.Proofs.Outcome
import Unnest.Validation

namespace Unnest

namespace Findings

-- A call goes on exactly if nothing is wrong with it.
theorem require_eq_ok_iff {channel : Channel} {found : Findings} {context : Datum} {u : Unit} :
    (found.require channel context).result = .ok u ↔ found.faults = [] := by
  unfold require
  split
  · next h => simp [h]
  · next h => simp [h, Except.bind_eq_ok]

theorem check_eq_ok_iff {found : Findings} {context : Datum} {u : Unit} :
    found.check context = .ok u ↔ found.faults = [] := by
  unfold check
  split
  · next h => simp [h]
  · next h => simp [h]

-- A valid call goes on without a note.
theorem require_of_valid {found : Findings} (h : found.faults = []) (channel : Channel)
    (context : Datum) : found.require channel context = pure () := by
  rw [require, h]

theorem require_of_faults {found : Findings} {first : Fault} {others : List Fault}
    (h : found.faults = first :: others) (channel : Channel) (context : Datum) :
    (found.require channel context).result = .error (.rejected { first, others, context }) := by
  rw [require, h]
  rfl

theorem check_of_faults {found : Findings} {first : Fault} {others : List Fault}
    (h : found.faults = first :: others) (context : Datum) :
    found.check context = .error (.rejected { first, others, context }) := by
  rw [check, h]

end Findings

-- What a cell of a column may be: nothing, or a value of its type.
def ColumnType.Fits (type : ColumnType) (d : Datum) : Prop :=
  d = .none ∨ type.admits d = true

namespace Validation

-- A column has a name, and that of the documents only where this is allowed.
theorem columnName_faults {allowReserved : Bool} {name : Datum} {found : Findings}
    (h : columnName allowReserved name = .ok found) (hf : found.faults = []) :
    ∃ key, name = .text key ∧ key ≠ [] ∧ (allowReserved = false → key ≠ documentColumn) := by
  unfold columnName at h
  split at h
  · next c cs =>
    obtain rfl := Except.ok.inj h
    refine ⟨c :: cs, rfl, List.cons_ne_nil c cs, fun hreserved heq => ?_⟩
    simp [hreserved, heq] at hf
  · obtain ⟨shown, _, rfl⟩ := Except.map_eq_ok.mp h
    cases hf

-- Cells that are let through are missing or fit the type.
theorem cells_faults {type : ColumnType} {values : List Datum} {found : Findings}
    (h : cells type values = .ok found) (hf : found.faults = []) :
    ∀ d ∈ values, type.Fits d := by
  unfold cells at h
  obtain ⟨faults, hfaults, hfound⟩ := Except.bind_eq_ok.mp h
  obtain rfl := Except.ok.inj hfound
  obtain rfl : faults = [] := hf
  have htaken := Except.mapM_eq_ok_iff.mp hfaults
  rw [List.forall₂_nil_right_iff, List.take_eq_nil_iff] at htaken
  have hnone := htaken.resolve_left (by decide)
  intro d hd
  obtain ⟨i, hi, rfl⟩ := List.getElem_of_mem hd
  have hmem : (values[i], 1 + i) ∈ values.zipIdx 1 :=
    List.mk_add_mem_zipIdx_iff_getElem?.mpr (List.getElem?_eq_getElem hi)
  have hfits := List.filter_eq_nil_iff.mp hnone _ hmem
  simp only at hfits
  split at hfits
  · next hmissing => exact .inl hmissing
  · exact .inr (by simpa using hfits)

-- A name under which a column may be written.
def Writable (name : Text) : Prop :=
  name ≠ [] ∧ name ≠ documentColumn

instance (name : Text) : Decidable (Writable name) :=
  inferInstanceAs (Decidable (name ≠ [] ∧ name ≠ documentColumn))

theorem columnName_of_writable {name : Text} (h : Writable name) :
    columnName false (.text name) = .ok {} := by
  obtain ⟨hnil, hdocument⟩ := h
  obtain ⟨c, cs, rfl⟩ := List.exists_cons_of_ne_nil hnil
  simp [columnName, hdocument]

theorem named_or_unnamed (name : Datum) :
    (∃ key, name = .text key ∧ key ≠ []) ∨ ∀ key, name = .text key → key = [] := by
  by_cases h : ∀ key, name = .text key → key = []
  · exact .inr h
  · push Not at h
    exact .inl h

-- A name that is no text, or an empty one, is shown in the fault.
theorem columnName_of_unnamed {name : Datum} (h : ∀ key, name = .text key → key = [])
    (allowReserved : Bool) :
    columnName allowReserved name =
      name.quoted.map fun shown => { faults := [.columnName shown] } := by
  unfold columnName
  split
  · next c cs => exact absurd (h _ rfl) (List.cons_ne_nil c cs)
  · rfl

-- On import any name will do.
theorem columnName_of_ne_nil {name : Text} (h : name ≠ []) :
    columnName true (.text name) = .ok {} := by
  obtain ⟨c, cs, rfl⟩ := List.exists_cons_of_ne_nil h
  simp [columnName]

theorem cells_of_fits {type : ColumnType} {values : List Datum}
    (h : ∀ d ∈ values, type.Fits d) : cells type values = .ok {} := by
  unfold cells
  extract_lets misfits
  have hnone : misfits = [] := by
    refine List.filter_eq_nil_iff.mpr fun ⟨value, row⟩ hmem => ?_
    rcases h value (List.fst_mem_of_mem_zipIdx hmem) with rfl | hadmits
    · exact Bool.false_ne_true
    · cases value <;> simp_all
  rw [hnone]
  rfl

end Validation

end Unnest
