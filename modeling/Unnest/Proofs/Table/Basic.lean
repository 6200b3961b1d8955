import Mathlib.Data.List.Basic
import Unnest.Proofs.Validation
import Unnest.Table.Basic

namespace Unnest

-- A column of numbers of documents holds nothing else, and the numbers are positive.
theorem Column.documents?_eq_some {c : Column} {numbers : List Nat}
    (h : c.documents? = some numbers) :
    c = ⟨.integer, numbers.map Datum.ofNat⟩ ∧ ∀ n ∈ numbers, 1 ≤ n := by
  obtain ⟨type, cells⟩ := c
  simp only [documents?] at h
  split at h
  · next htype =>
    obtain rfl := htype
    induction cells generalizing numbers with
    | nil =>
        obtain rfl := Option.some.inj h
        exact ⟨rfl, fun n hn => absurd hn List.not_mem_nil⟩
    | cons cell cells ih =>
        simp only [List.mapM_cons, Option.bind_eq_bind, Option.bind_eq_some_iff] at h
        obtain ⟨n, hn, rest, hrest, hnumbers⟩ := h
        obtain rfl := Option.some.inj hnumbers
        obtain ⟨hcells, hpos⟩ := ih hrest
        split at hn
        · next i =>
          split at hn
          · next hi =>
            obtain rfl := Option.some.inj hn
            have hcast : (i.toNat : Int) = i := Int.toNat_of_nonneg (by omega)
            refine ⟨?_, ?_⟩
            · rw [(Column.mk.inj hcells).2, List.map_cons, Datum.ofNat, hcast]
            · intro n hn
              rcases List.mem_cons.mp hn with rfl | hn
              · omega
              · exact hpos n hn
          · cases hn
        · cases hn
  · cases h

-- Which columns hold the numbers of documents.
theorem Column.isSome_documents?_iff {c : Column} : c.documents?.isSome = true ↔
    c.type = .integer ∧ ∀ d ∈ c.cells, ∃ n : Int, d = .int n ∧ 1 ≤ n := by
  constructor
  · intro h
    obtain ⟨numbers, hnumbers⟩ := Option.isSome_iff_exists.mp h
    obtain ⟨rfl, hpos⟩ := documents?_eq_some hnumbers
    refine ⟨rfl, fun d hd => ?_⟩
    obtain ⟨n, hn, rfl⟩ := List.mem_map.mp hd
    exact ⟨n, rfl, by exact_mod_cast hpos n hn⟩
  · rintro ⟨htype, hcells⟩
    rw [documents?, if_pos htype, Option.isSome_iff_exists]
    refine ⟨_, Option.mapM_eq_some_iff.mpr ⟨fun d hd => ?_, rfl⟩⟩
    obtain ⟨n, rfl, hn⟩ := hcells d hd
    simp [hn]

theorem Column.documents?_of_pos {numbers : List Nat} (h : ∀ n ∈ numbers, 1 ≤ n) :
    documents? ⟨.integer, numbers.map Datum.ofNat⟩ = some numbers := by
  rw [documents?, if_pos rfl, List.mapM_map]
  induction numbers with
  | nil => rfl
  | cons n numbers ih =>
      obtain ⟨hn, hnumbers⟩ := List.forall_mem_cons.mp h
      have hpos : (1 : Int) ≤ n := by omega
      simp [Datum.ofNat, hpos, ih hnumbers]

-- The cells of a second column, if there is one, below those of the first.
def Column.stack (c : Column) (d : Option Column) : Column :=
  { c with cells := c.cells ++ (d.getD ⟨c.type, []⟩).cells }

namespace Table

-- Equally long lists side by side, one of them looked up by position.
theorem zip_eq_map_zipIdx {l : List α} {m : List β} (h : l.length = m.length) (default : α) :
    l.zip m = m.zipIdx.map fun (b, i) => (l.getD i default, b) := by
  refine List.ext_getElem (by simp [h]) fun i hi hj => ?_
  simp only [List.length_zip, Nat.lt_min] at hi
  simp [hi.1]

-- The elements at the positions at which a mask is true.
theorem map_getD_marked {l : List α} {mask : List Bool} (h : l.length = mask.length)
    (default : α) :
    (marked mask).map (l.getD · default) =
      (l.zip mask).filterMap fun (a, keep) => if keep then some a else none := by
  rw [zip_eq_map_zipIdx h default, List.filterMap_map, marked, List.map_filterMap]
  congr 1
  funext ⟨keep, i⟩
  cases keep <;> rfl

-- A column is written under a name of its own, if its cells fit its type and there is one for each
-- row.
theorem withColumn_ok {t u : Table} {name : Datum} {type : ColumnType} {cells : List Datum}
    (h : t.withColumn name type cells = .ok u) :
    ∃ key, name = .text key ∧ key ≠ [] ∧ key ≠ documentColumn ∧ cells.length = t.rowCount ∧
      (∀ d ∈ cells, type.Fits d) ∧
      u = { t with others := Entries.put key ⟨type, cells⟩ t.others } := by
  unfold withColumn at h
  obtain ⟨named, hnamed, hnext⟩ := Except.bind_eq_ok.mp h
  obtain ⟨_, hcheck, hnext⟩ := Except.bind_eq_ok.mp hnext
  obtain ⟨key, rfl, hkey, hreserved⟩ :=
    Validation.columnName_faults hnamed (Findings.check_eq_ok_iff.mp hcheck)
  simp only at hnext
  split at hnext
  · cases hnext
  · next hlength =>
    obtain ⟨found, hfound, hnext⟩ := Except.bind_eq_ok.mp hnext
    obtain ⟨_, hfits, hnext⟩ := Except.bind_eq_ok.mp hnext
    obtain rfl := Except.ok.inj hnext
    exact ⟨key, rfl, hkey, hreserved rfl, Decidable.not_not.mp hlength,
      Validation.cells_faults hfound (Findings.check_eq_ok_iff.mp hfits), rfl⟩

theorem take_ok {t u : Table} {positions : List Int} (h : t.take positions = .ok u) :
    ∃ rows, u = t.select rows := by
  unfold take at h
  split at h
  · cases h
  · next rows _ => exact ⟨rows, (Except.ok.inj h).symm⟩

theorem filterRows_ok {t u : Table} {mask : List Bool} (h : t.filterRows mask = .ok u) :
    mask.length = t.rowCount ∧ u = t.select (marked mask) := by
  unfold filterRows at h
  split at h
  · next hlength => exact ⟨hlength, (Except.ok.inj h).symm⟩
  · cases h

-- The rows of a second table below those of the first, in the columns of the first.
def stack (t u : Table) : Table where
  documents := t.documents ++ u.documents
  others := t.others.map fun e => (e.1, e.2.stack (u.others.lookup e.1))

-- Tables are put together if they have the same names, and if the columns of one name are of one
-- type.
theorem append_eq_ok_iff {t u v : Table} :
    t.append u = .ok v ↔ (∀ name, name ∈ t.names ↔ name ∈ u.names) ∧
      (∀ e ∈ t.others, e.2.type = ((u.others.lookup e.1).getD ⟨e.2.type, []⟩).type) ∧
      v = t.stack u := by
  have hnames : (t.names.all u.names.contains && u.names.all t.names.contains) = true ↔
      ∀ name, name ∈ t.names ↔ name ∈ u.names := by
    simp only [Bool.and_eq_true, List.all_eq_true, List.contains_iff_mem]
    exact ⟨fun h name => ⟨h.1 name, h.2 name⟩, fun h => ⟨fun n => (h n).mp, fun n => (h n).mpr⟩⟩
  unfold append
  simp only
  split
  · next h =>
    simp only [Except.bind_eq_ok, Except.mapM_ite_eq_ok_iff]
    constructor
    · rintro ⟨others, ⟨htypes, rfl⟩, hv⟩
      exact ⟨hnames.mp h, htypes, (Except.ok.inj hv).symm⟩
    · rintro ⟨-, htypes, rfl⟩
      exact ⟨_, ⟨htypes, rfl⟩, rfl⟩
  · next h =>
    refine iff_of_false (fun hv => ?_) fun hv => h (hnames.mpr hv.1)
    cases hv

theorem documents_append {t u v : Table} (h : t.append u = .ok v) :
    v.documents = t.documents ++ u.documents := by
  obtain ⟨-, -, rfl⟩ := append_eq_ok_iff.mp h
  rfl

end Table

end Unnest
