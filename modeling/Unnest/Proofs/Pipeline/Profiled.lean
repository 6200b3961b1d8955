import Unnest.Proofs.Pipeline.Basic
import Unnest.Proofs.Profiler.Session

namespace Unnest

open Profiler (MemoryFinite)

-- The number of rows that came out of a stage; a failure gives none.
def rowsGiven : Except Failure JsonTable → Nat
  | .ok u => u.rowCount
  | .error _ => 0

namespace Stage

theorem ne_nil_of_describe {s : Stage} {shown : Text} (h : s.describe = .ok shown) :
    shown ≠ [] := by
  obtain ⟨arguments, -, hshown⟩ := Except.bind_eq_ok.mp h
  obtain rfl := Except.ok.inj hshown
  have hbracket : Text.ofString "(" ≠ [] := by decide
  simp [Text.concat, hbracket]

theorem runMeasured_ok {s : Stage} {shown : Text} (h : s.describe = .ok shown) {t : JsonTable}
    {p : Profiler} (hmemory : MemoryFinite p.sensors.memory)
    (hrows : ∃ x, Binary64.ofInt? t.rowCount = some x) :
    (s.runMeasured t p).1.result = (s.run t).result ∧
      MemoryFinite (s.runMeasured t p).2.sensors.memory ∧
      ∃ m : Metrics, (s.runMeasured t p).2.history = p.history ++ [m] ∧ m.operation = shown ∧
        m.rowsIn = t.rowCount ∧ m.rowsOut = rowsGiven (s.run t).result := by
  have hnoted (x : Traced JsonTable) :
      (do let u ← x; s.noteRowCounts t u; return u : Traced JsonTable).result = x.result := by
    simp only [noteRowCounts, h, Traced.result_bind, Traced.result_liftM]
    cases x.result <;> rfl
  rw [result_run_of_describe h]
  unfold runMeasured
  rw [h]
  dsimp only
  rw [hnoted]
  refine Profiler.measure_ok hmemory (ne_nil_of_describe h) hrows fun q hq => ?_
  split
  · next e happly =>
    rw [happly]
    exact ⟨rfl, hq⟩
  · next u happly =>
    obtain ⟨hrecorded, hmeasures⟩ := hq.record u.rowCount
    rw [happly]
    refine ⟨?_, hmeasures⟩
    simp only [Traced.result_bind, happly, hrecorded]
    rfl

end Stage

namespace Pipeline

-- Every table that a stage is applied to has so few rows that a double can count them, as has any
-- that fits into a memory.
def RowsInRange (stages : Pipeline) (t : JsonTable) : Prop :=
  ∀ k < stages.length, ∀ w, after (stages.take k) t = .ok w →
    ∃ x, Binary64.ofInt? w.rowCount = some x

theorem RowsInRange.tail {s : Stage} {stages : Pipeline} {t u : JsonTable}
    (h : RowsInRange (s :: stages) t) (hu : (s.run t).result = .ok u) :
    RowsInRange stages u := by
  intro k hk w hw
  refine h (k + 1) (Nat.succ_lt_succ hk) w ?_
  rw [List.take_succ_cons, after_cons_ok hu]
  exact hw

-- What is said of a run that starts at a table: one entry for each stage that is attempted, which
-- are those that all stages before them lead to. An entry names the stage, takes over the rows of
-- the one before and says how many come out of the stage.
structure Accounts (stages : Pipeline) (t : JsonTable) (entries : List Metrics) : Prop where
  attempted : ∀ k, k < entries.length ↔ k < stages.length ∧ ∃ w, after (stages.take k) t = .ok w
  named : ∀ (k : Nat) (s : Stage) (m : Metrics), stages[k]? = some s → entries[k]? = some m →
    s.describe = .ok m.operation
  first : ∀ m : Metrics, entries[0]? = some m → m.rowsIn = t.rowCount
  chained : ∀ (k : Nat) (m n : Metrics), entries[k]? = some m → entries[k + 1]? = some n →
    n.rowsIn = m.rowsOut
  given : ∀ (k : Nat) (m : Metrics), entries[k]? = some m →
    m.rowsOut = rowsGiven (after (stages.take (k + 1)) t)

theorem accounts_nil (t : JsonTable) : Accounts [] t [] where
  attempted k := by simp
  named k s m hs hm := by cases hm
  first m hm := by cases hm
  chained k m n hm hn := by cases hm
  given k m hm := by cases hm

-- Nothing is said of what comes after a failure.
theorem accounts_failed {s : Stage} {stages : Pipeline} {t : JsonTable} {e : Failure}
    {m : Metrics} (h : (s.run t).result = .error e) (hnamed : s.describe = .ok m.operation)
    (hrowsIn : m.rowsIn = t.rowCount) (hrowsOut : m.rowsOut = 0) :
    Accounts (s :: stages) t [m] where
  attempted k := by
    cases k with
    | zero => simp
    | succ k => simp [after_cons_error h]
  named k s' n hs hn := by
    cases k with
    | zero =>
        cases hs
        cases hn
        exact hnamed
    | succ k => cases hn
  first n hn := by
    cases hn
    exact hrowsIn
  chained k n n' hn hn' := by cases hn'
  given k n hn := by
    rw [List.take_succ_cons, after_cons_error h]
    cases k with
    | zero =>
        cases hn
        exact hrowsOut
    | succ k => cases hn

theorem Accounts.cons {s : Stage} {stages : Pipeline} {t u : JsonTable} {m : Metrics}
    {entries : List Metrics} (hrest : Accounts stages u entries) (h : (s.run t).result = .ok u)
    (hnamed : s.describe = .ok m.operation) (hrowsIn : m.rowsIn = t.rowCount)
    (hrowsOut : m.rowsOut = u.rowCount) : Accounts (s :: stages) t (m :: entries) where
  attempted k := by
    cases k with
    | zero => simp
    | succ k => simpa [after_cons_ok h] using hrest.attempted k
  named k s' n hs hn := by
    cases k with
    | zero =>
        cases hs
        cases hn
        exact hnamed
    | succ k => exact hrest.named k s' n hs hn
  first n hn := by
    cases hn
    exact hrowsIn
  chained k n n' hn hn' := by
    cases k with
    | zero =>
        cases hn
        exact (hrest.first n' hn').trans hrowsOut.symm
    | succ k => exact hrest.chained k n n' hn hn'
  given k n hn := by
    rw [List.take_succ_cons, after_cons_ok h]
    cases k with
    | zero =>
        cases hn
        exact hrowsOut
    | succ k => exact hrest.given k n hn

theorem runStages_ok {stages : Pipeline} {t : JsonTable} {p : Profiler}
    (hshown : ∀ s ∈ stages, ∃ shown, s.describe = .ok shown)
    (hmemory : MemoryFinite p.sensors.memory) (hrows : RowsInRange stages t) :
    (runStages stages t p).1.result = after stages t ∧
      ∃ entries, (runStages stages t p).2.history = p.history ++ entries ∧
        Accounts stages t entries := by
  induction stages generalizing t p with
  | nil => exact ⟨rfl, [], (List.append_nil _).symm, accounts_nil t⟩
  | cons s stages ih =>
      obtain ⟨⟨shown, hs⟩, hstages⟩ := List.forall_mem_cons.mp hshown
      have hcount := hrows 0 (Nat.succ_pos _) t rfl
      obtain ⟨hresult, hfinite, m, hhistory, rfl, hrowsIn, hrowsOut⟩ :=
        Stage.runMeasured_ok hs hmemory hcount
      rw [runStages]
      split
      next outcome q hmeasured =>
      rw [hmeasured] at hresult hfinite hhistory
      split
      · next e hfails =>
        have hrun := hresult.symm.trans hfails
        rw [hrun] at hrowsOut
        exact ⟨hfails.trans (after_cons_error hrun stages).symm, [m], hhistory,
          accounts_failed hrun hs hrowsIn hrowsOut⟩
      · next u hgives =>
        have hrun := hresult.symm.trans hgives
        rw [hrun] at hrowsOut
        obtain ⟨hlater, entries, hentries, haccounts⟩ := ih hstages hfinite (hrows.tail hrun)
        refine ⟨?_, m :: entries, ?_, haccounts.cons hrun hs hrowsIn hrowsOut⟩
        · rw [after_cons_ok hrun, Traced.result_bind, hgives]
          exact hlater
        · rw [hentries, hhistory, List.append_assoc]
          rfl

-- All stages are attempted in a run that succeeds, and the last rows are those of its table.
theorem Accounts.complete {stages : Pipeline} {t u : JsonTable} {entries : List Metrics}
    (h : Accounts stages t entries) (hu : after stages t = .ok u) :
    entries.length = stages.length ∧ ∀ m ∈ entries.getLast?, m.rowsOut = u.rowCount := by
  have hlength : entries.length = stages.length := by
    refine Nat.le_antisymm (Nat.le_of_not_lt fun hlt => ?_) (Nat.le_of_not_lt fun hlt => ?_)
    · exact absurd ((h.attempted _).mp hlt).1 (Nat.lt_irrefl _)
    · exact absurd ((h.attempted _).mpr ⟨hlt, exists_after_take hu _⟩) (Nat.lt_irrefl _)
  refine ⟨hlength, fun m hm => ?_⟩
  have hpos : 0 < entries.length := List.length_pos_iff.mpr (by rintro rfl; cases hm)
  rw [List.getLast?_eq_getElem?] at hm
  have hgiven := h.given _ m hm
  have hall : stages.take (entries.length - 1 + 1) = stages :=
    List.take_of_length_le (by omega)
  rw [hgiven, hall, hu]
  rfl

-- Measuring changes nothing of what a run comes to, and its history accounts for every stage that
-- was attempted, up to the one that failed if there is one.
theorem profiled_transparent {stages : Pipeline} {source : Source} {jsonColumn : Datum}
    {p : Profiler} (hshown : ∀ s ∈ stages, ∃ shown, s.describe = .ok shown)
    (hmemory : MemoryFinite p.sensors.memory)
    (hrows : ∀ t, (source.load .pipeline jsonColumn).result = .ok t → RowsInRange stages t) :
    (stages.runProfiled source jsonColumn p).1.result = (stages.run source jsonColumn).result ∧
      ∀ t, (source.load .pipeline jsonColumn).result = .ok t → ∃ entries,
        (stages.runProfiled source jsonColumn p).2.history = p.history ++ entries ∧
        Accounts stages t entries ∧
        ∀ u, (stages.run source jsonColumn).result = .ok u →
          entries.length = stages.length ∧ ∀ m ∈ entries.getLast?, m.rowsOut = u.rowCount := by
  simp only [result_run]
  unfold runProfiled
  dsimp only
  split
  · next e hfails =>
    have hload := (result_begin ..).symm.trans hfails
    rw [hfails, hload]
    refine ⟨rfl, fun t ht => ?_⟩
    cases ht
  · next t ht =>
    have hload := (result_begin ..).symm.trans ht
    obtain ⟨hresult, entries, hentries, haccounts⟩ := runStages_ok hshown hmemory (hrows t hload)
    rw [hload, Except.ok_bind]
    refine ⟨?_, fun t' ht' => ?_⟩
    · simp only [Traced.result_bind, ht, hresult, Except.ok_bind]
      cases after stages t <;> rfl
    · obtain rfl := Except.ok.inj ht'
      exact ⟨entries, hentries, haccounts, fun u hu => haccounts.complete hu⟩

-- The second of two stages fails, and is the last to be accounted for.
theorem profiled_transparent_failing :
    ∃ (stages : Pipeline) (source : Source) (p : Profiler),
      (∀ s ∈ stages, ∃ shown, s.describe = .ok shown) ∧ MemoryFinite p.sensors.memory ∧
      (∀ t, (source.load .pipeline .none).result = .ok t → RowsInRange stages t) ∧
      (stages.runProfiled source .none p).1.result = (stages.run source).result ∧
      (stages.runProfiled source .none p).2.history.map
          (fun m => (m.operation, m.rowsIn, m.rowsOut)) =
        ([("gather_array()", 2, 1), ("gather_array('document.id')", 1, 0)] :
          List (Text × Int × Int)) := by
  let first : Stage := { verb := "gather_array" }
  let second : Stage := { verb := "gather_array", arguments := ⟨[.text "document.id"], []⟩ }
  let t : JsonTable := .ofDocuments [{ json := .array [.logical true] }, .null]
  let p : Profiler :=
    { channel := .profiler, sensors := ⟨[.zero, .one], [1048576, 2097152], []⟩ }
  have hfirst : first.describe = .ok "gather_array()" := rfl
  have hsecond : second.describe = .ok "gather_array('document.id')" := rfl
  have hshown : ∀ s ∈ [first, second], ∃ shown, s.describe = .ok shown := by
    simp [hfirst, hsecond]
  have hmemory : MemoryFinite p.sensors.memory := by
    intro bytes hbytes
    have hsmall : ∀ bytes ∈ p.sensors.memory, bytes.natAbs ≤ 2 ^ 64 := by decide
    exact Profiler.megabytes_ok (hsmall bytes hbytes)
  obtain ⟨u, hu, hcount, e, he⟩ : ∃ u, (first.run t).result = .ok u ∧ u.rowCount = 1 ∧
      ∃ e, (second.run u).result = .error e := ⟨_, rfl, rfl, _, rfl⟩
  have hrows : ∀ t', (Source.load .pipeline (.tidy t) .none).result = .ok t' →
      RowsInRange [first, second] t' := by
    intro t' ht' k hk w hw
    obtain rfl := Except.ok.inj ht'
    have hsmall : w.rowCount ≤ 2 := by
      match k, hk with
      | 0, _ =>
          obtain rfl := Except.ok.inj hw
          exact Nat.le_refl 2
      | 1, _ =>
          obtain rfl := Except.ok.inj ((after_cons_ok hu []).symm.trans hw)
          omega
    obtain ⟨negative, rank, hx⟩ :=
      Binary64.ofInt?_eq_some (show (w.rowCount : Int).natAbs ≤ 2 ^ 64 by omega)
    exact ⟨_, hx⟩
  obtain ⟨hresult, haccounts⟩ := profiled_transparent hshown hmemory hrows
  obtain ⟨entries, hhistory, haccounts, -⟩ := haccounts t rfl
  have hlt := (haccounts.attempted 1).mpr ⟨by decide, u, after_cons_ok hu []⟩
  have hle : ¬2 < entries.length := fun h =>
    absurd ((haccounts.attempted 2).mp h).1 (Nat.lt_irrefl 2)
  obtain ⟨m, n, rfl⟩ := List.length_eq_two.mp (show entries.length = 2 by omega)
  have hm := Except.ok.inj (hfirst.symm.trans (haccounts.named 0 first m rfl rfl))
  have hn := Except.ok.inj (hsecond.symm.trans (haccounts.named 1 second n rfl rfl))
  have hmIn : m.rowsIn = 2 := haccounts.first m rfl
  have hmOut : m.rowsOut = 1 := by
    rw [haccounts.given 0 m rfl, show [first, second].take 1 = [first] from rfl,
      after_cons_ok hu, after_nil, rowsGiven, hcount]
    rfl
  have hnIn : n.rowsIn = 1 := (haccounts.chained 0 m n rfl rfl).trans hmOut
  have hnOut : n.rowsOut = 0 := by
    rw [haccounts.given 1 n rfl, show [first, second].take 2 = [first, second] from rfl,
      after_cons_ok hu, after_cons_error he]
    rfl
  refine ⟨[first, second], .tidy t, p, hshown, hmemory, hrows, hresult, ?_⟩
  rw [hhistory]
  simp [p, ← hm, ← hn, hmIn, hmOut, hnIn, hnOut]

end Pipeline

end Unnest
