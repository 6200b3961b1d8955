import Unnest.Profiler.Report
import Unnest.Proofs.Text.Csv
import Unnest.Proofs.Text.Figures

namespace Unnest

open CsvReader Text

theorem CodePoint.IsFigure.not_isCsvBreak {c : CodePoint} (h : c.IsFigure) : ¬IsCsvBreak c := by
  rintro (rfl | rfl | rfl) <;> exact absurd h (by decide)

-- Numbers need no quotes.
theorem Text.Figures.spells {t : Text} (h : t.Figures) : Spells t t :=
  spells_plain (fun c hc => (h c hc).not_isCsvBreak) fun hquote =>
    absurd (h _ (List.mem_of_mem_head? hquote)) (by decide)

namespace Metrics

-- What is reported of an operation on a line, field by field.
def csvFields (m : Metrics) : List Text :=
  [m.operation, m.duration.text, .ofInt m.rowsIn, .ofInt m.rowsOut,
    match m.memoryPeak with
    | .int n => .ofInt n
    | .real x => x.text,
    m.rate.text]

-- A record of six fields that names the operation and its rows.
structure Tells (m : Metrics) (record : List Text) : Prop where
  length : record.length = 6
  operation : record[0]? = some m.operation
  rowsIn : record[2]? = some (.ofInt m.rowsIn)
  rowsOut : record[3]? = some (.ofInt m.rowsOut)

theorem tells_csvFields (m : Metrics) : m.Tells m.csvFields :=
  ⟨rfl, rfl, rfl, rfl⟩

-- Only the name of the operation can keep a line from being read as its fields.
theorem isLine_csvFields {m : Metrics} (hquote : m.operation.head? ≠ some (.char '"'))
    (h : ∀ c ∈ m.operation, ¬IsCsvBreak c) : IsLine m.csvLine m.csvFields := by
  have hpeak : Figures (match m.memoryPeak with
      | .int n => .ofInt n
      | .real x => x.text) := by
    cases m.memoryPeak with
    | int n => exact figures_ofInt n
    | real x => exact x.figures_text
  refine ⟨m.csvFields, rfl, ?_, List.cons_ne_nil _ _, by simp [csvFields]⟩
  exact .cons (spells_plain h hquote) (.cons m.duration.figures_text.spells
    (.cons (figures_ofInt _).spells (.cons (figures_ofInt _).spells (.cons hpeak.spells
      (.cons m.rate.figures_text.spells .nil)))))

end Metrics

namespace Profiler

def csvHeader : List Text :=
  ["operation", "duration", "rows_in", "rows_out", "memory_peak_mb", "rows_per_second"]

theorem toCsv_eq (p : Profiler) :
    p.toCsv = .join "\n" (.join "," csvHeader :: p.history.map Metrics.csvLine) := by
  have hheader : Text.join "," csvHeader =
      "operation,duration,rows_in,rows_out,memory_peak_mb,rows_per_second" := by
    decide
  rw [hheader]
  rfl

theorem isLine_csvHeader : IsLine (.join "," csvHeader) csvHeader := by
  refine ⟨csvHeader, rfl, List.forall₂_same.mpr fun t ht => spells_plain ?_ ?_,
    List.cons_ne_nil _ _, nofun⟩
  · have hbreaks : ∀ t ∈ csvHeader, ∀ c ∈ t, ¬IsCsvBreak c := by decide
    exact hbreaks t ht
  · have hquotes : ∀ t ∈ csvHeader, t.head? ≠ some (.char '"') := by decide
    exact hquotes t ht

-- What is exported can be read by a reader that knows nothing of it: a header, and a record for
-- each operation.
def ReadsBack (p : Profiler) : Prop :=
  ∃ text records, p.exportAs "csv" = .ok text ∧ readCsv text = csvHeader :: records ∧
    List.Forall₂ Metrics.Tells p.history records

variable {p : Profiler}

theorem readsBack_iff_toCsv : p.ReadsBack ↔
    ∃ records, readCsv p.toCsv = csvHeader :: records ∧
      List.Forall₂ Metrics.Tells p.history records := by
  have hexport : p.exportAs "csv" = .ok p.toCsv := rfl
  constructor
  · rintro ⟨text, records, htext, hread⟩
    obtain rfl := Except.ok.inj (hexport.symm.trans htext)
    exact ⟨records, hread⟩
  · rintro ⟨records, hread⟩
    exact ⟨_, records, hexport, hread⟩

theorem readsBack_iff (hquote : ∀ m ∈ p.history, m.operation.head? ≠ some (.char '"')) :
    p.ReadsBack ↔ ∀ m ∈ p.history, ∀ c ∈ m.operation, ¬IsCsvBreak c := by
  have hlines {entries : List Metrics} (h : ∀ m ∈ entries, IsLine m.csvLine m.csvFields) :
      List.Forall₂ IsLine (.join "," csvHeader :: entries.map Metrics.csvLine)
        (csvHeader :: entries.map Metrics.csvFields) := by
    refine .cons isLine_csvHeader ?_
    rw [List.forall₂_map_left_iff, List.forall₂_map_right_iff, List.forall₂_same]
    exact h
  rw [readsBack_iff_toCsv, toCsv_eq]
  constructor
  · rintro ⟨records, hread, htells⟩
    by_contra hbreak
    -- the first operation that is cut: all lines before it are read as they are
    obtain ⟨m, hfind⟩ : ∃ m, p.history.find?
        (fun m => decide (∃ c ∈ m.operation, IsCsvBreak c)) = some m := by
      simpa [← Option.isSome_iff_exists] using hbreak
    obtain ⟨hm, before, after, hhistory, hbefore⟩ := List.find?_eq_some_iff_append.mp hfind
    rw [hhistory] at hquote hread htells
    have hline : ∀ m ∈ before, IsLine m.csvLine m.csvFields := by
      intro m hm
      refine Metrics.isLine_csvFields (hquote m (List.mem_append_left _ hm)) ?_
      simpa using hbefore m hm
    have hoperation : m.operation <+: m.csvLine := prefix_join _ _ _
    obtain ⟨rest, hrest⟩ :=
      hoperation.trans (prefix_join "\n" m.csvLine (after.map Metrics.csvLine))
    obtain ⟨field, row, hfield, hrow, hhead⟩ := exists_cut
      (hquote m List.mem_append_cons_self) (of_decide_eq_true hm)
      (csvHeader :: before.map Metrics.csvFields) rest
    have hcut : (csvHeader :: records)[before.length + 1]? = some row := by
      rw [← hread, readCsv, List.map_append, List.map_cons, ← List.cons_append,
        foldl_lines (hlines hline), List.nil_append, ← hrest]
      simpa using hrow
    rw [List.getElem?_cons_succ] at hcut
    obtain ⟨hlength, rfl⟩ := List.getElem?_eq_some_iff.mp hcut
    have htold : m.Tells records[before.length] := by
      simpa using htells.get (by simp) hlength
    rw [List.head?_eq_getElem?] at hhead
    exact hfield (Option.some.inj (hhead.symm.trans htold.operation))
  · intro h
    refine ⟨p.history.map Metrics.csvFields, readCsv_join (hlines fun m hm => ?_), ?_⟩
    · exact Metrics.isLine_csvFields (hquote m hm) (h m hm)
    · rw [List.forall₂_map_right_iff, List.forall₂_same]
      exact fun m _ => m.tells_csvFields

end Profiler

end Unnest
