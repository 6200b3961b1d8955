import Unnest.Profiler.Basic
import Unnest.Proofs.Binary64.Rounding
import Unnest.Proofs.Outcome

namespace Unnest

theorem reading_fst_mem (idle : α) (l : List α) : (reading idle l).1 ∈ idle :: l := by
  match l with
  | [] => exact List.mem_cons_self
  | [x] | x :: _ :: _ => exact List.mem_cons_of_mem _ List.mem_cons_self

theorem reading_snd_subset (idle : α) (l : List α) : (reading idle l).2 ⊆ l := by
  match l with
  | [] | [x] => exact List.Subset.refl _
  | x :: y :: rest => exact List.subset_cons_self x _

namespace Profiler

theorem megabytes_ok {bytes : Int} (h : bytes.natAbs ≤ 2 ^ 64) : ∃ x, megabytes bytes = .ok x := by
  obtain ⟨rank, hrank⟩ := Binary64.ofRatio_eq_finite (bytes < 0) (show 0 < 1024 by decide)
    (h.trans (Nat.le_mul_of_pos_right _ (by decide)))
  unfold megabytes
  rw [hrank]
  exact ⟨_, rfl⟩

-- Readings of memory that are finite in megabytes.
def MemoryFinite (readings : List Int) : Prop :=
  ∀ bytes ∈ readings, ∃ x, megabytes bytes = .ok x

theorem readMemory_ok {p q : Profiler} {outcome : Except Failure Binary64}
    (hread : p.readMemory = (outcome, q)) (h : MemoryFinite p.sensors.memory) :
    (∃ x, outcome = .ok x) ∧ MemoryFinite q.sensors.memory ∧ q.session = p.session ∧
      q.rowsIn = p.rowsIn ∧ q.rowsOut = p.rowsOut ∧ q.history = p.history := by
  have hfinite : ∃ x, megabytes (reading 0 p.sensors.memory).1 = .ok x := by
    rcases List.mem_cons.mp (reading_fst_mem 0 p.sensors.memory) with hidle | hmem
    · rw [hidle]
      exact megabytes_ok (Nat.zero_le _)
    · exact h _ hmem
  obtain ⟨rfl, rfl⟩ := Prod.mk.inj hread
  exact ⟨hfinite, fun bytes hbytes => h bytes (reading_snd_subset 0 _ hbytes), rfl, rfl, rfl, rfl⟩

theorem readClock_eq (p : Profiler) : p.readClock = ((reading .zero p.sensors.clock).1,
    { p with sensors := { p.sensors with clock := (reading .zero p.sensors.clock).2 } }) := rfl

theorem readMemory_eq (p : Profiler) : p.readMemory = (megabytes (reading 0 p.sensors.memory).1,
    { p with sensors := { p.sensors with memory := (reading 0 p.sensors.memory).2 } }) := rfl

theorem readProcessor_eq (p : Profiler) :
    p.readProcessor = ((reading .zero p.sensors.processor).1,
      { p with sensors :=
        { p.sensors with processor := (reading .zero p.sensors.processor).2 } }) := rfl

-- A session that is open, and what is going to be said of its operation.
structure Measures (p : Profiler) (history : List Metrics) (operation : Text)
    (rowsIn rowsOut : Int) : Prop where
  memory : MemoryFinite p.sensors.memory
  history : p.history = history
  session : p.session.map Session.operation = some operation
  rowsIn : p.rowsIn = rowsIn
  rowsOut : p.rowsOut = rowsOut

theorem start_ok {p : Profiler} (h : MemoryFinite p.sensors.memory) (operation : Text)
    (rows : Int) : (p.start operation rows).1.result = .ok () ∧
      (p.start operation rows).2.Measures p.history operation rows 0 := by
  unfold start
  rw [readClock_eq]
  dsimp only
  split
  · next hread =>
    obtain ⟨⟨x, hx⟩, -⟩ := readMemory_ok hread h
    cases hx
  · next hread =>
    obtain ⟨-, hmemory, -, hrowsIn, hrowsOut, hhistory⟩ := readMemory_ok hread h
    exact ⟨rfl, hmemory, hhistory, rfl, hrowsIn, hrowsOut⟩

theorem Measures.record {p : Profiler} {history : List Metrics} {operation : Text}
    {rowsIn rowsOut : Int} (h : p.Measures history operation rowsIn rowsOut) (rows : Int) :
    (p.record rows).1.result = .ok () ∧
      (p.record rows).2.Measures history operation rowsIn rows := by
  unfold Profiler.record
  dsimp only
  split
  · next hread =>
    obtain ⟨⟨x, hx⟩, -⟩ := readMemory_ok hread h.memory
    cases hx
  · next hread =>
    obtain ⟨-, hmemory, hsession, hrowsIn, hrowsOut, hhistory⟩ := readMemory_ok hread h.memory
    exact ⟨rfl, hmemory, hhistory.trans h.history,
      (congrArg (Option.map Session.operation) hsession).trans h.session,
      hrowsIn.trans h.rowsIn, hrowsOut⟩

theorem rowRate_ok {rows : Int} (h : ∃ x, Binary64.ofInt? rows = some x) (duration : Binary64) :
    ∃ x, rowRate rows duration = .ok x := by
  obtain ⟨count, hcount⟩ := h
  unfold rowRate
  split
  · rw [hcount]
    exact ⟨_, rfl⟩
  · exact ⟨_, rfl⟩

-- What was said of an operation is what its session ends with.
theorem Measures.stop {p : Profiler} {history : List Metrics} {operation : Text}
    {rowsIn rowsOut : Int} (h : p.Measures history operation rowsIn rowsOut)
    (hoperation : operation ≠ []) (hrows : ∃ x, Binary64.ofInt? rowsIn = some x) :
    ∃ m : Metrics, p.stop.1.result = .ok m ∧ MemoryFinite p.stop.2.sensors.memory ∧
      p.stop.2.history = history ++ [m] ∧ m.operation = operation ∧ m.rowsIn = rowsIn ∧
      m.rowsOut = rowsOut := by
  obtain ⟨session, hsession, rfl⟩ := Option.map_eq_some_iff.mp h.session
  have hnamed : ¬session.operation.isEmpty := by simpa using hoperation
  unfold Profiler.stop
  rw [hsession]
  dsimp only
  rw [if_neg hnamed, readClock_eq]
  dsimp only
  split
  · next hread =>
    obtain ⟨⟨x, hx⟩, -⟩ := readMemory_ok hread h.memory
    cases hx
  · next hread =>
    obtain ⟨-, hmemory, -, hrowsIn, hrowsOut, hhistory⟩ := readMemory_ok hread h.memory
    rw [readProcessor_eq]
    dsimp only
    rw [hrowsIn, h.rowsIn]
    split
    · next hrate =>
      obtain ⟨rate, hok⟩ := rowRate_ok hrows _
      cases hok.symm.trans hrate
    · exact ⟨_, rfl, hmemory, by rw [hhistory, h.history], rfl, rfl, hrowsOut.trans h.rowsOut⟩

-- A measured operation has the outcome that it has by itself, as long as it says nothing to its
-- session but the rows that it gives. Whatever the outcome, the session ends with its figures.
theorem measure_ok {p : Profiler} (h : MemoryFinite p.sensors.memory) {operation : Text}
    {rows : Int} (hoperation : operation ≠ []) (hrows : ∃ x, Binary64.ofInt? rows = some x)
    {body : Profiler → Traced α × Profiler} {outcome : Except Failure α} {rowsOut : Int}
    (hbody : ∀ q : Profiler, q.Measures p.history operation rows 0 →
      (body q).1.result = outcome ∧ (body q).2.Measures p.history operation rows rowsOut) :
    (p.measure operation rows body).1.result = outcome ∧
      MemoryFinite (p.measure operation rows body).2.sensors.memory ∧
      ∃ m : Metrics, (p.measure operation rows body).2.history = p.history ++ [m] ∧
        m.operation = operation ∧ m.rowsIn = rows ∧ m.rowsOut = rowsOut := by
  obtain ⟨hstarted, hopen⟩ := start_ok h operation rows
  obtain ⟨houtcome, hmeasures⟩ := hbody _ hopen
  obtain ⟨m, hstopped, hmemory, hm⟩ := hmeasures.stop hoperation hrows
  unfold measure
  dsimp only
  rw [hstarted]
  exact ⟨by rw [hstopped, houtcome]; rfl, hmemory, m, hm⟩

end Profiler

end Unnest
