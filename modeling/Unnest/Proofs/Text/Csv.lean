import Mathlib.Data.List.Forall2
import Unnest.Proofs.Text.Separator
import Unnest.Table.Csv

namespace Unnest

-- What is being read: a field that has just begun, one without quotes, one inside of its quotes,
-- one behind a quote that may have closed it, or a record behind a carriage return, which a line
-- feed may follow.
inductive CsvMode where
  | start
  | plain
  | quoted
  | closed
  | returned
  deriving DecidableEq, Repr

-- A reader of comma-separated values: the records that are complete, and what is known of the one
-- that is not.
structure CsvReader where
  records : List (List Text) := []
  record : List Text := []
  field : Text := []
  mode : CsvMode := .start
  deriving DecidableEq, Repr

namespace CsvReader

def endField (r : CsvReader) : CsvReader :=
  { records := r.records, record := r.record ++ [r.field] }

def endRecord (r : CsvReader) (mode : CsvMode) : CsvReader :=
  { records := r.records ++ [r.record ++ [r.field]], mode }

def take (r : CsvReader) (c : CodePoint) : CsvReader :=
  if c = .char ',' then r.endField
  else if c = .char '\n' then r.endRecord .start
  else if c = .char '\r' then r.endRecord .returned
  else { r with field := r.field ++ [c], mode := .plain }

-- A quote opens a field at its beginning only, and two of them stand for one inside.
def step (r : CsvReader) (c : CodePoint) : CsvReader :=
  match r.mode with
  | .start => if c = .char '"' then { r with mode := .quoted } else r.take c
  | .plain => r.take c
  | .quoted =>
      if c = .char '"' then { r with mode := .closed } else { r with field := r.field ++ [c] }
  | .closed =>
      if c = .char '"' then { r with field := r.field ++ [c], mode := .quoted } else r.take c
  | .returned =>
      if c = .char '\n' then { r with mode := .start }
      else if c = .char '"' then { r with mode := .quoted }
      else r.take c

-- The last record need not end with a line end.
def finish (r : CsvReader) : List (List Text) :=
  if r.record = [] ∧ (r.mode = .start ∨ r.mode = .returned) then r.records
  else r.records ++ [r.record ++ [r.field]]

end CsvReader

namespace Text

def readCsv (t : Text) : List (List Text) :=
  (t.foldl CsvReader.step {}).finish

-- The characters at which a field without quotes ends.
def IsCsvBreak (c : CodePoint) : Prop :=
  c = .char ',' ∨ c = .char '\n' ∨ c = .char '\r'

instance (c : CodePoint) : Decidable (IsCsvBreak c) :=
  inferInstanceAs (Decidable (_ ∨ _ ∨ _))

end Text

namespace CsvReader

open Text

-- A text that is read as a field wherever a field begins, and behind which the field can end.
def Spells (t field : Text) : Prop :=
  ∃ mode, mode ≠ .quoted ∧ mode ≠ .returned ∧ (mode = .start → field = []) ∧
    ∀ records record, t.foldl step { records, record } = { records, record, field, mode }

variable {records : List (List Text)} {record : List Text} {field t : Text}

theorem step_eq_take {r : CsvReader} (hquoted : r.mode ≠ .quoted) (hreturned : r.mode ≠ .returned)
    {c : CodePoint} (hc : c ≠ .char '"') : r.step c = r.take c := by
  unfold step
  split
  · rw [if_neg hc]
  · rfl
  · next h => exact absurd h hquoted
  · rw [if_neg hc]
  · next h => exact absurd h hreturned

theorem take_of_not_break (r : CsvReader) {c : CodePoint} (h : ¬IsCsvBreak c) :
    r.take c = { r with field := r.field ++ [c], mode := .plain } := by
  rw [IsCsvBreak, not_or, not_or] at h
  rw [take, if_neg h.1, if_neg h.2.1, if_neg h.2.2]

theorem foldl_plain (h : ∀ c ∈ t, ¬IsCsvBreak c) :
    t.foldl step ⟨records, record, field, .plain⟩ = ⟨records, record, field ++ t, .plain⟩ := by
  induction t generalizing field with
  | nil => rw [List.append_nil]; rfl
  | cons c t ih =>
      obtain ⟨hc, ht⟩ := List.forall_mem_cons.mp h
      have hstep : step ⟨records, record, field, .plain⟩ c =
          ⟨records, record, field ++ [c], .plain⟩ :=
        take_of_not_break _ hc
      rw [List.foldl_cons, hstep, ih ht, List.append_assoc]
      rfl

theorem spells_plain (h : ∀ c ∈ t, ¬IsCsvBreak c) (hquote : t.head? ≠ some (.char '"')) :
    Spells t t := by
  cases t with
  | nil => exact ⟨.start, nofun, nofun, fun _ => rfl, fun _ _ => rfl⟩
  | cons c t =>
      obtain ⟨hc, ht⟩ := List.forall_mem_cons.mp h
      refine ⟨.plain, nofun, nofun, nofun, fun records record => ?_⟩
      have hstep : step ⟨records, record, [], .start⟩ c = ⟨records, record, [c], .plain⟩ := by
        rw [step_eq_take (by rintro ⟨⟩) (by rintro ⟨⟩) fun heq => hquote (congrArg some heq)]
        exact take_of_not_break _ hc
      rw [List.foldl_cons, hstep, foldl_plain ht]
      rfl

-- Inside of quotes every character stands for itself, once its quotes are doubled.
theorem foldl_doubled (t : Text) :
    (t.flatMap fun c => if c = .char '"' then [c, c] else [c]).foldl step
      ⟨records, record, field, .quoted⟩ = ⟨records, record, field ++ t, .quoted⟩ := by
  induction t generalizing field with
  | nil => rw [List.append_nil]; rfl
  | cons c t ih =>
      have hstep : (if c = .char '"' then [c, c] else [c]).foldl step
          ⟨records, record, field, .quoted⟩ = ⟨records, record, field ++ [c], .quoted⟩ := by
        split
        · next hc => rw [hc]; rfl
        · next hc => exact if_neg hc
      rw [List.flatMap_cons, List.foldl_append, hstep, ih, List.append_assoc]
      rfl

-- Quoting keeps every field together, unless a carriage return stands in it.
theorem spells_csvField (h : .char '\r' ∉ t) : Spells (csvField t) t := by
  unfold csvField
  split
  · refine ⟨.closed, nofun, nofun, nofun, fun records record => ?_⟩
    rw [Text.concat, List.flatten_cons, List.flatten_cons, List.flatten_singleton,
      List.foldl_append, List.foldl_append]
    show ((t.flatMap _).foldl step ⟨records, record, [], .quoted⟩).step (.char '"') = _
    rw [foldl_doubled]
    rfl
  · next hplain =>
    simp only [List.any_eq_true, Bool.or_eq_true, decide_eq_true_eq, not_exists, not_and,
      not_or] at hplain
    refine spells_plain (fun c hc => ?_) fun hquote => ?_
    · rintro (rfl | rfl | rfl)
      · exact (hplain _ hc).1.1 rfl
      · exact (hplain _ hc).2 rfl
      · exact h hc
    · exact (hplain _ (List.mem_of_mem_head? hquote)).1.2 rfl

-- A field ends at a comma, and with its record at a line feed or with the text.
theorem Spells.ends (h : Spells t field) (records : List (List Text)) (record : List Text) :
    (t.foldl step { records, record }).step (.char ',') =
        { records, record := record ++ [field] } ∧
      (t.foldl step { records, record }).step (.char '\n') =
        { records := records ++ [record ++ [field]] } ∧
      (record ++ [field] ≠ [[]] →
        (t.foldl step { records, record }).finish = records ++ [record ++ [field]]) := by
  obtain ⟨mode, hquoted, hreturned, hstart, hread⟩ := h
  rw [hread]
  refine ⟨step_eq_take hquoted hreturned (by decide), step_eq_take hquoted hreturned (by decide),
    fun hrow => if_neg ?_⟩
  rintro ⟨hrecord, hmode⟩
  obtain rfl : record = [] := hrecord
  exact hrow (by rw [hstart (hmode.resolve_right hreturned)]; rfl)

theorem foldl_row {ts fields : List Text} (h : List.Forall₂ Spells ts fields) (hne : fields ≠ [])
    (record : List Text) (hrow : record ++ fields ≠ [[]]) :
    ((join "," ts).foldl step { records, record }).step (.char '\n') =
        { records := records ++ [record ++ fields] } ∧
      ((join "," ts).foldl step { records, record }).finish = records ++ [record ++ fields] := by
  induction h generalizing record with
  | nil => exact absurd rfl hne
  | @cons t field ts fields ht hts ih =>
      cases hts with
      | nil => exact ⟨(ht.ends records record).2.1, (ht.ends records record).2.2 hrow⟩
      | cons _ _ =>
          rw [List.append_cons record] at hrow ⊢
          rw [show Text.ofString "," = [.char ','] from rfl] at ih ⊢
          rw [join_cons_cons, List.foldl_append, List.foldl_cons, (ht.ends records record).1]
          exact ih (List.cons_ne_nil _ _) _ hrow

-- A line of fields that are separated by commas. An empty line has no fields.
def IsLine (line : Text) (row : List Text) : Prop :=
  ∃ ts, line = join "," ts ∧ List.Forall₂ Spells ts row ∧ row ≠ [] ∧ row ≠ [[]]

theorem IsLine.foldl {line : Text} {row : List Text} (h : IsLine line row) (rest : Text) :
    (line ++ .char '\n' :: rest).foldl step { records } =
      rest.foldl step { records := records ++ [row] } := by
  obtain ⟨ts, rfl, hts, hne, hempty⟩ := h
  rw [List.foldl_append, List.foldl_cons, (foldl_row hts hne [] hempty).1]
  rfl

theorem foldl_lines {lines : List Text} {rows : List (List Text)}
    (h : List.Forall₂ IsLine lines rows) (next : Text) (later : List Text) :
    (join "\n" (lines ++ next :: later)).foldl step { records } =
      (join "\n" (next :: later)).foldl step { records := records ++ rows } := by
  rw [show Text.ofString "\n" = [.char '\n'] from rfl]
  induction h generalizing records with
  | nil => rw [List.append_nil]; rfl
  | @cons line row lines rows hline _ ih =>
      obtain ⟨t, rest, hrest⟩ : ∃ t rest, lines ++ next :: later = t :: rest :=
        List.exists_cons_of_ne_nil (by simp)
      rw [List.cons_append, hrest, join_cons_cons, ← hrest, hline.foldl, ih, List.append_assoc]
      rfl

-- Lines are read as the rows that they are made of.
theorem readCsv_join {lines : List Text} {rows : List (List Text)}
    (h : List.Forall₂ IsLine lines rows) : readCsv (join "\n" lines) = rows := by
  have hfinish (records : List (List Text)) :
      ((join "\n" lines).foldl step { records }).finish = records ++ rows := by
    rw [show Text.ofString "\n" = [.char '\n'] from rfl]
    induction h generalizing records with
    | nil => exact (List.append_nil records).symm
    | @cons line row lines rows hline hlines ih =>
        cases hlines with
        | nil =>
            obtain ⟨ts, rfl, hts, hne, hempty⟩ := hline
            exact (foldl_row hts hne [] hempty).2
        | cons =>
            rw [join_cons_cons, hline.foldl, ih, List.append_assoc]
            rfl
  exact hfinish []

-- The lines of a table that is exported are read as its rows, with what is quoted in them.
theorem readCsv_csvLine {rows : List (List Text)}
    (hreturn : ∀ row ∈ rows, ∀ t ∈ row, .char '\r' ∉ t)
    (hrows : ∀ row ∈ rows, row ≠ [] ∧ row ≠ [[]]) :
    readCsv (concat (rows.map csvLine)) = rows := by
  have hread (records : List (List Text)) :
      (concat (rows.map csvLine)).foldl step { records } = { records := records ++ rows } := by
    induction rows generalizing records with
    | nil => rw [List.append_nil]; rfl
    | cons row rows ih =>
        obtain ⟨hrow, hrows⟩ := List.forall_mem_cons.mp hrows
        obtain ⟨hreturnRow, hreturn⟩ := List.forall_mem_cons.mp hreturn
        have hspells : List.Forall₂ Spells (row.map csvField) row := by
          rw [List.forall₂_map_left_iff, List.forall₂_same]
          exact fun t ht => spells_csvField (hreturnRow t ht)
        have hline : IsLine (join "," (row.map csvField)) row := ⟨_, rfl, hspells, hrow⟩
        have hsplit : concat ((row :: rows).map csvLine) =
            join "," (row.map csvField) ++ .char '\n' :: concat (rows.map csvLine) := by
          simp [concat, csvLine, show Text.ofString "\n" = [.char '\n'] from rfl]
        rw [hsplit, hline.foldl, ih hreturn hrows, List.append_assoc]
        rfl
  rw [readCsv, hread]
  rfl

-- The first field of a record is known, whether the record is complete or not.
def Begins (n : Nat) (field : Text) (r : CsvReader) : Prop :=
  (∃ row, r.records[n]? = some row ∧ row.head? = some field) ∨
    r.records.length = n ∧ r.record.head? = some field

theorem step_cases (r : CsvReader) (c : CodePoint) :
    (r.step c).records = r.records ∧
        ((r.step c).record = r.record ∨ (r.step c).record = r.record ++ [r.field]) ∨
      (r.step c).records = r.records ++ [r.record ++ [r.field]] := by
  have htake : (r.take c).records = r.records ∧
      ((r.take c).record = r.record ∨ (r.take c).record = r.record ++ [r.field]) ∨
        (r.take c).records = r.records ++ [r.record ++ [r.field]] := by
    unfold take
    split
    · exact .inl ⟨rfl, .inr rfl⟩
    split
    · exact .inr rfl
    split
    · exact .inr rfl
    · exact .inl ⟨rfl, .inl rfl⟩
  unfold step
  split
  · split
    · exact .inl ⟨rfl, .inl rfl⟩
    · exact htake
  · exact htake
  · split <;> exact .inl ⟨rfl, .inl rfl⟩
  · split
    · exact .inl ⟨rfl, .inl rfl⟩
    · exact htake
  · split
    · exact .inl ⟨rfl, .inl rfl⟩
    split
    · exact .inl ⟨rfl, .inl rfl⟩
    · exact htake

variable {n : Nat} {r : CsvReader}

theorem Begins.complete (h : Begins n field r) : ∃ row,
    (r.records ++ [r.record ++ [r.field]])[n]? = some row ∧ row.head? = some field := by
  rcases h with ⟨row, hrow, hhead⟩ | ⟨rfl, hhead⟩
  · refine ⟨row, ?_, hhead⟩
    rw [List.getElem?_append_left (List.getElem?_eq_some_iff.mp hrow).1, hrow]
  · refine ⟨r.record ++ [r.field], by simp, ?_⟩
    rw [List.head?_append, hhead]
    rfl

theorem Begins.step (h : Begins n field r) (c : CodePoint) : Begins n field (r.step c) := by
  rcases step_cases r c with ⟨hrecords, hrecord⟩ | hrecords
  · rcases h with hrow | ⟨hlength, hhead⟩
    · exact .inl (by rwa [hrecords])
    · refine .inr ⟨by rw [hrecords, hlength], ?_⟩
      rcases hrecord with hrecord | hrecord
      · rw [hrecord, hhead]
      · rw [hrecord, List.head?_append, hhead]
        rfl
  · exact .inl (by rw [hrecords]; exact h.complete)

theorem Begins.foldl (h : Begins n field r) (t : Text) :
    Begins n field (t.foldl CsvReader.step r) := by
  induction t generalizing r with
  | nil => exact h
  | cons c t ih => exact ih (h.step c)

theorem Begins.finish (h : Begins n field r) :
    ∃ row, r.finish[n]? = some row ∧ row.head? = some field := by
  unfold CsvReader.finish
  split
  · next hend =>
    rcases h with hrow | ⟨-, hhead⟩
    · exact hrow
    · rw [hend.1] at hhead
      cases hhead
  · exact h.complete

-- What is not quoted is read as less than the whole text if a field ends in it.
theorem exists_cut (hquote : t.head? ≠ some (.char '"')) (h : ∃ c ∈ t, IsCsvBreak c)
    (records : List (List Text)) (rest : Text) : ∃ before row, before ≠ t ∧
      ((t ++ rest).foldl step { records }).finish[records.length]? = some row ∧
      row.head? = some before := by
  obtain ⟨c, hfind⟩ : ∃ c, t.find? (fun c => decide (IsCsvBreak c)) = some c := by
    simpa [← Option.isSome_iff_exists] using h
  obtain ⟨hc, before, after, rfl, hbefore⟩ := List.find?_eq_some_iff_append.mp hfind
  have hbreak : IsCsvBreak c := of_decide_eq_true hc
  have hhead : before.head? ≠ some (.char '"') := by
    intro hhead
    exact hquote (by rw [List.head?_append, hhead]; rfl)
  obtain ⟨mode, hquoted, hreturned, -, hread⟩ :=
    spells_plain (fun d hd => by simpa using hbefore d hd) hhead
  have hcut : Begins records.length before (step ⟨records, [], before, mode⟩ c) := by
    rw [step_eq_take hquoted hreturned (by rintro rfl; exact absurd hbreak (by decide))]
    rcases hbreak with rfl | rfl | rfl
    · exact .inr ⟨rfl, rfl⟩
    · exact .inl ⟨[before], List.getElem?_concat_length, rfl⟩
    · exact .inl ⟨[before], List.getElem?_concat_length, rfl⟩
  obtain ⟨row, hrow, hfield⟩ := (hcut.foldl (after ++ rest)).finish
  refine ⟨before, row, by simp, ?_, hfield⟩
  rw [List.append_assoc, List.cons_append, List.foldl_append, List.foldl_cons, hread]
  exact hrow

end CsvReader

end Unnest
