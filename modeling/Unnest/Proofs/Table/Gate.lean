import Unnest.Proofs.Datum.Display
import Unnest.Proofs.Entries
import Unnest.Proofs.Table.Rows
import Unnest.Proofs.Table.Sound

namespace Unnest

-- What may stand in a column of a type. A logical is not a number, and an integer is a number too.
inductive ColumnType.Holds : ColumnType → Datum → Prop where
  | missing (type : ColumnType) : Holds type .none
  | text (t : Text) : Holds .string (.text t)
  | logical (b : Bool) : Holds .logical (.bool b)
  | integer (n : Int) : Holds .integer (.int n)
  | whole (n : Int) : Holds .number (.int n)
  | real (x : Binary64) : Holds .number (.float x)

theorem ColumnType.holds_iff_fits {type : ColumnType} {d : Datum} :
    type.Holds d ↔ type.Fits d := by
  constructor
  · intro h
    cases h with
    | missing => exact .inl rfl
    | text | logical | integer | whole | real => exact .inr rfl
  · rintro (rfl | hadmits)
    · exact .missing type
    · unfold admits at hadmits
      split at hadmits
      · exact .text _
      · exact .logical _
      · exact .integer _
      · exact .whole _
      · exact .real _
      · cases hadmits

namespace Validation

-- The rows, counted from zero and in their order, whose cells do not belong to the type.
structure Offending (type : ColumnType) (cells : List Datum) (rows : List Nat) : Prop where
  ordered : rows.Pairwise (· < ·)
  exact : ∀ row, row ∈ rows ↔ ∃ d, cells[row]? = some d ∧ ¬type.Holds d

-- The fault of a row, with the sentence that it adds to the message.
def Reports (type : ColumnType) (cells : List Datum) (row : Nat) (fault : Fault) : Prop :=
  ∃ d shown, cells[row]? = some d ∧ d.quoted = .ok shown ∧ fault = .cell (row + 1) shown type ∧
    fault.message = .concat ["Row ", .ofNat (row + 1), ": ", shown, " is not a valid ",
      type.name, " cell"]

theorem Offending.eq_nil_iff {type : ColumnType} {cells : List Datum} {rows : List Nat}
    (h : Offending type cells rows) : rows = [] ↔ ∀ d ∈ cells, type.Holds d := by
  rw [List.eq_nil_iff_forall_not_mem]
  constructor
  · intro hnone d hd
    obtain ⟨row, hrow⟩ := List.mem_iff_getElem?.mp hd
    by_contra hholds
    exact hnone row ((h.exact row).mpr ⟨d, hrow, hholds⟩)
  · intro hall row hrow
    obtain ⟨d, hd, hholds⟩ := (h.exact row).mp hrow
    exact hholds (hall d (List.mem_of_getElem? hd))

-- A cell that does not belong to the type, beside the number of its row.
def isMisfit (type : ColumnType) : Datum × Nat → Bool := fun (value, _) =>
  match value with
  | .none => false
  | value => !type.admits value

def misfits (type : ColumnType) (values : List Datum) : List (Datum × Nat) :=
  values.zipIdx.filter (isMisfit type)

theorem mem_misfits {type : ColumnType} {values : List Datum} {d : Datum} {row : Nat} :
    (d, row) ∈ misfits type values ↔ values[row]? = some d ∧ ¬type.Holds d := by
  rw [misfits, List.mem_filter, List.mk_mem_zipIdx_iff_getElem?, ColumnType.holds_iff_fits]
  refine and_congr_right fun _ => ?_
  cases d <;> simp [isMisfit, ColumnType.Fits]

theorem offending_misfits (type : ColumnType) (values : List Datum) :
    Offending type values ((misfits type values).map Prod.snd) := by
  constructor
  · have hpositions : (values.zipIdx.map Prod.snd).Pairwise (· < ·) := by
      rw [List.zipIdx_map_snd]
      exact List.pairwise_lt_range'
    exact hpositions.sublist (List.filter_sublist.map _)
  · intro row
    constructor
    · intro hrow
      obtain ⟨⟨d, _⟩, hmem, rfl⟩ := List.mem_map.mp hrow
      exact ⟨d, mem_misfits.mp hmem⟩
    · rintro ⟨d, hd⟩
      exact List.mem_map.mpr ⟨(d, row), mem_misfits.mpr hd, rfl⟩

-- The fault of a cell, with its row counted from one.
def cellFault (type : ColumnType) (e : Datum × Nat) : Except Failure Fault :=
  do return .cell (e.2 + 1) (← e.1.quoted) type

theorem cells_eq (type : ColumnType) (values : List Datum) :
    cells type values = (do
      let faults ← ((misfits type values).take maxCellFaults).mapM (cellFault type)
      return { faults }) := by
  have hshifted : (values.zipIdx 1).filter (isMisfit type) =
      (misfits type values).map fun e => (e.1, e.2 + 1) := by
    rw [List.zipIdx_succ, List.filter_map, misfits]
    congr 2
  calc
    cells type values = (do
        let faults ← (((values.zipIdx 1).filter (isMisfit type)).take maxCellFaults).mapM
          fun (e : Datum × Nat) => do return Fault.cell e.2 (← e.1.quoted) type
        return { faults }) := rfl
    _ = _ := by
      rw [hshifted, ← List.map_take, List.mapM_map]
      rfl

-- The check stops at the fifth fault, and yet tells whether there is any.
theorem cells_reports (type : ColumnType) {values : List Datum}
    (hvalues : ∀ d ∈ values, ∃ shown, d.quoted = .ok shown) :
    ∃ found rows, cells type values = .ok found ∧ Offending type values rows ∧
      List.Forall₂ (Reports type values) (rows.take maxCellFaults) found.faults := by
  have hfound : ∀ e ∈ (misfits type values).take maxCellFaults, values[e.2]? = some e.1 :=
    fun e he => (mem_misfits.mp (List.mem_of_mem_take he)).1
  obtain ⟨faults, hfaults⟩ : ∃ faults,
      ((misfits type values).take maxCellFaults).mapM (cellFault type) = .ok faults := by
    refine Except.exists_mapM_eq_ok fun e he => ?_
    obtain ⟨shown, hshown⟩ := hvalues e.1 (List.mem_of_getElem? (hfound e he))
    exact ⟨_, Except.bind_eq_ok.mpr ⟨shown, hshown, rfl⟩⟩
  refine ⟨{ faults }, _, ?_, offending_misfits type values, ?_⟩
  · rw [cells_eq, hfaults]
    rfl
  · have hall := List.forall₂_iff_zip.mp (Except.mapM_eq_ok_iff.mp hfaults)
    rw [← List.map_take, List.forall₂_map_left_iff]
    refine List.forall₂_iff_zip.mpr ⟨hall.1, fun {e} fault hzip => ?_⟩
    obtain ⟨shown, hshown, hfault⟩ := Except.bind_eq_ok.mp (hall.2 hzip)
    obtain rfl := Except.ok.inj hfault
    exact ⟨e.1, shown, hfound e (List.of_mem_zip hzip).1, hshown, rfl, rfl⟩

end Validation

namespace Table

open Validation

-- Why a column is not written. What comes first stands in the way of what comes after it.
inductive Refused (t : Table) (type : ColumnType) (cells : List Datum) :
    Datum → Failure → Prop where
  | name {name : Datum} {shown : Text} (hname : ∀ key, name = .text key → key = [])
      (hshown : name.quoted = .ok shown) :
      Refused t type cells name (.reject (.columnName shown) (.record [("column", name)]))
  | reserved : Refused t type cells (.text documentColumn)
      (.reject .reservedColumn (.record [("column", .text documentColumn)]))
  | count {key : Text} (hkey : Writable key) (hcount : cells.length ≠ t.rowCount) :
      Refused t type cells (.text key) (.reject (.rowCount key cells.length t.rowCount)
        (.record [("column", .text key)]))
  | cells {key : Text} {rows : List Nat} {first : Fault} {others : List Fault}
      (hkey : Writable key) (hcount : cells.length = t.rowCount)
      (hrows : Offending type cells rows)
      (hfaults : List.Forall₂ (Reports type cells) (rows.take 5) (first :: others)) :
      Refused t type cells (.text key)
        (.rejected { first, others, context := .record [("column", .text key)] })

-- What a column has to be like to be written.
structure Admits (t : Table) (type : ColumnType) (cells : List Datum) (name : Datum) : Prop where
  name : ∃ key, name = .text key ∧ key ≠ [] ∧ key ≠ documentColumn
  count : cells.length = t.rowCount
  cells : ∀ d ∈ cells, type.Holds d

variable {t : Table} {type : ColumnType} {cells : List Datum}

theorem refused_of_name {name : Datum} (h : ∀ key, name = .text key → ¬Writable key)
    (hname : ∃ shown, name.quoted = .ok shown) :
    ∃ e, t.withColumn name type cells = .error e ∧ t.Refused type cells name e := by
  obtain ⟨shown, hshown⟩ := hname
  rcases named_or_unnamed name with ⟨key, rfl, hkey⟩ | hempty
  · obtain rfl : key = documentColumn := by
      by_contra hother
      exact h key rfl ⟨hkey, hother⟩
    exact ⟨_, rfl, .reserved⟩
  · refine ⟨_, ?_, .name hempty hshown⟩
    simp only [withColumn, columnName_of_unnamed hempty, hshown]
    rfl

theorem refused_of_count {key : Text} (hkey : Writable key) (hcount : cells.length ≠ t.rowCount) :
    ∃ e, t.withColumn (.text key) type cells = .error e ∧
      t.Refused type cells (.text key) e := by
  refine ⟨_, ?_, .count hkey hcount⟩
  simp only [withColumn, columnName_of_writable hkey, hcount, ne_eq, not_false_eq_true, if_true]
  rfl

theorem refused_of_cells {key : Text} (hkey : Writable key) (hcount : cells.length = t.rowCount)
    (hshown : ∀ d ∈ cells, ∃ shown, d.quoted = .ok shown) (hcells : ¬∀ d ∈ cells, type.Holds d) :
    ∃ e, t.withColumn (.text key) type cells = .error e ∧
      t.Refused type cells (.text key) e := by
  obtain ⟨found, rows, hfound, hrows, hfaults⟩ := cells_reports type hshown
  cases hlist : found.faults with
  | nil =>
      rw [hlist, List.forall₂_nil_right_iff, List.take_eq_nil_iff] at hfaults
      exact absurd (hrows.eq_nil_iff.mp (hfaults.resolve_left (by decide))) hcells
  | cons first others =>
      refine ⟨_, ?_, .cells hkey hcount hrows (hlist ▸ hfaults)⟩
      have hcheck := Findings.check_of_faults hlist (.record [("column", .text key)])
      simp only [withColumn, columnName_of_writable hkey, hcount, ne_eq, not_true_eq_false,
        if_false, hfound, Except.ok_bind, hcheck]
      rfl

-- Nothing that has to be as it is passes unless it is, and each refusal has its reason.
theorem admits_or_refused {name : Datum} (hname : ∃ shown, name.quoted = .ok shown)
    (hshown : ∀ d ∈ cells, ∃ shown, d.quoted = .ok shown) :
    (t.Admits type cells name ∧ ∃ u, t.withColumn name type cells = .ok u) ∨
      ¬t.Admits type cells name ∧
        ∃ e, t.withColumn name type cells = .error e ∧ t.Refused type cells name e := by
  by_cases hkey : ∃ key, name = .text key ∧ Writable key
  · obtain ⟨key, rfl, hkey⟩ := hkey
    by_cases hcount : cells.length = t.rowCount
    · by_cases hcells : ∀ d ∈ cells, type.Holds d
      · have hfits : ∀ d ∈ cells, type.Fits d := fun d hd =>
          ColumnType.holds_iff_fits.mp (hcells d hd)
        exact .inl ⟨⟨⟨key, rfl, hkey⟩, hcount, hcells⟩, _, withColumn_eq_ok hkey hcount hfits⟩
      · exact .inr ⟨fun h => hcells h.cells, refused_of_cells hkey hcount hshown hcells⟩
    · exact .inr ⟨fun h => hcount h.count, refused_of_count hkey hcount⟩
  · refine .inr ⟨fun h => hkey h.name, refused_of_name (fun key hname hwritable => ?_) hname⟩
    exact hkey ⟨key, hname, hwritable⟩

-- An old column is replaced in its place, and a new one comes after all others.
theorem Sound.columns_put {key : Text} (h : t.Sound) (hkey : key ≠ documentColumn) (c : Column) :
    columns { t with others := Entries.put key c t.others } =
      if key ∈ t.names then t.columns.map fun e => if e.1 = key then (key, c) else e
      else t.columns ++ [(key, c)] := by
  rw [Table.columns_put c hkey]
  split
  · next hold => exact Entries.put_of_mem h.names_nodup hold c
  · next hnew => exact Entries.put_of_not_mem hnew c

-- Only the last column that is written under a name counts.
theorem withColumn_withColumn {u : Table} {name : Datum}
    (h : t.withColumn name type cells = .ok u) (other : ColumnType) (values : List Datum) :
    u.withColumn name other values = t.withColumn name other values := by
  obtain ⟨key, rfl, hnil, hdocument, -, -, rfl⟩ := withColumn_ok h
  have hcount : rowCount { t with others := Entries.put key ⟨type, cells⟩ t.others } =
      t.rowCount := rfl
  simp only [withColumn, columnName_of_writable ⟨hnil, hdocument⟩, hcount, Entries.put_put_self]

-- A column is written exactly if its name is good, its cells are as many as the rows and each is
-- missing or of the type. Otherwise the first of these three that fails is what is reported.
theorem withColumn_exact (h : t.Sound) {name : Datum} (type : ColumnType) {cells : List Datum}
    (hname : ∃ shown, name.quoted = .ok shown)
    (hshown : ∀ d ∈ cells, ∃ shown, d.quoted = .ok shown) :
    ((∃ u, t.withColumn name type cells = .ok u) ↔ t.Admits type cells name) ∧
      (∀ e, t.withColumn name type cells = .error e → t.Refused type cells name e) ∧
      ∀ u, t.withColumn name type cells = .ok u →
        u.rowCount = t.rowCount ∧
          (∃ key, name = .text key ∧ u.columns =
            if key ∈ t.names then
              t.columns.map fun e => if e.1 = key then (key, ⟨type, cells⟩) else e
            else t.columns ++ [(key, ⟨type, cells⟩)]) ∧
          ∀ other values, u.withColumn name other values = t.withColumn name other values := by
  have hcases := @admits_or_refused t type cells name hname hshown
  refine ⟨⟨?_, fun hadmits => ?_⟩, fun e he => ?_, fun u hu => ⟨?_, ?_, ?_⟩⟩
  · rintro ⟨u, hu⟩
    obtain ⟨hadmits, -⟩ | ⟨-, e, he, -⟩ := hcases
    · exact hadmits
    · cases hu.symm.trans he
  · obtain ⟨-, hok⟩ | ⟨hnot, -⟩ := hcases
    · exact hok
    · exact absurd hadmits hnot
  · obtain ⟨-, u, hu⟩ | ⟨-, e', he', hrefused⟩ := hcases
    · cases hu.symm.trans he
    · obtain rfl := Except.error.inj (he'.symm.trans he)
      exact hrefused
  · obtain ⟨key, -, -, -, -, -, rfl⟩ := withColumn_ok hu
    rfl
  · obtain ⟨key, rfl, -, hdocument, -, -, rfl⟩ := withColumn_ok hu
    exact ⟨key, rfl, h.columns_put hdocument ⟨type, cells⟩⟩
  · exact withColumn_withColumn hu

-- Six of seven logicals in a column of integers are one more than are named. As numbers, the
-- integers replace the texts in the first of two columns.
theorem withColumn_exact_replaced :
    let t : Table := ⟨List.range' 1 7, [("a", ⟨.string, List.replicate 7 (.text "s")⟩),
      ("b", ⟨.logical, List.replicate 7 .none⟩)]⟩
    let wrong : List Datum := List.replicate 6 (.bool true) ++ [.int 1]
    let right : List Datum := .none :: List.replicate 6 (.int 1)
    t.Sound ∧
      (∃ r, t.withColumn (.text "a") .integer wrong = .error (.rejected r) ∧
        r.others.length = 4 ∧ t.Refused .integer wrong (.text "a") (.rejected r)) ∧
      ∃ u, t.withColumn (.text "a") .number right = .ok u ∧
        u.names = [documentColumn, "a", "b"] ∧
        u.withColumn (.text "a") .integer right = t.withColumn (.text "a") .integer right := by
  intro t wrong right
  have hsound : t.Sound := by
    refine sound_of_parts (by decide) (by decide) ?_
    refine List.forall_mem_cons.mpr ⟨⟨by decide, by decide, rfl, ?_⟩,
      List.forall_mem_singleton.mpr ⟨by decide, by decide, rfl, ?_⟩⟩
    · exact fun d hd => .inr (by rw [List.eq_of_mem_replicate hd]; rfl)
    · exact fun d hd => .inl (List.eq_of_mem_replicate hd)
  have hname : ∃ shown, (Datum.text "a").quoted = .ok shown := ⟨_, rfl⟩
  have hwrong : ∀ d ∈ wrong, ∃ shown, d.quoted = .ok shown := by
    refine List.forall_mem_append.mpr ⟨fun d hd => ?_, List.forall_mem_singleton.mpr ⟨_, rfl⟩⟩
    rw [List.eq_of_mem_replicate hd]
    exact ⟨_, rfl⟩
  have hright : ∀ d ∈ right, ∃ shown, d.quoted = .ok shown := by
    refine List.forall_mem_cons.mpr ⟨⟨_, rfl⟩, fun d hd => ?_⟩
    rw [List.eq_of_mem_replicate hd]
    exact ⟨_, rfl⟩
  obtain ⟨-, hrefused, -⟩ := withColumn_exact hsound .integer hname hwrong
  obtain ⟨-, -, hwritten⟩ := withColumn_exact hsound .number hname hright
  obtain ⟨-, -, htwice⟩ := hwritten _ rfl
  exact ⟨hsound, ⟨_, rfl, rfl, hrefused _ rfl⟩, _, rfl, rfl, htwice .integer right⟩

end Table

end Unnest
