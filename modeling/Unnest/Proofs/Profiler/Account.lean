import Unnest.Proofs.Binary64.Integer
import Unnest.Proofs.Profiler.Session

namespace Unnest

-- What can be asked of a profiler.
inductive Request where
  | start (operation : Text) (rows : Int)
  | record (rows : Int)
  | stop

-- One of the readings that no other is greater than.
structure IsMaximum (peak : Number) (readings : List Binary64) : Prop where
  mem : ∃ x ∈ readings, peak = .real x
  max : ∀ x ∈ readings, peak.lt (.real x) = false

theorem isMaximum_singleton (x : Binary64) : IsMaximum (.real x) [x] :=
  ⟨⟨x, List.mem_singleton_self x, rfl⟩,
    List.forall_mem_singleton.mpr (Number.lt_irrefl (.real x))⟩

theorem IsMaximum.concat {peak : Number} {readings : List Binary64} (h : IsMaximum peak readings)
    (y : Binary64) : IsMaximum (peak.max (.real y)) (readings ++ [y]) := by
  unfold Number.max
  split
  · next hlt =>
    refine ⟨⟨y, by simp, rfl⟩, fun x hx => ?_⟩
    rcases List.mem_append.mp hx with hx | hx
    · rw [← Bool.not_eq_true]
      intro hyx
      exact Bool.false_ne_true ((h.max x hx).symm.trans (Number.lt_trans hlt hyx))
    · rw [List.mem_singleton.mp hx]
      exact Number.lt_irrefl _
  · next hlt =>
    obtain ⟨x, hx, hpeak⟩ := h.mem
    refine ⟨⟨x, List.mem_append_left _ hx, hpeak⟩, fun x hx => ?_⟩
    rcases List.mem_append.mp hx with hx | hx
    · exact h.max x hx
    · rw [List.mem_singleton.mp hx]
      simpa using hlt

-- The sensors after one reading of each.
def Sensors.next (s : Sensors) : Sensors where
  clock := (reading .zero s.clock).2
  memory := (reading 0 s.memory).2
  processor := (reading .zero s.processor).2

namespace Profiler

-- The state that a request leaves, whether it went through or not.
def perform (p : Profiler) : Request → Profiler
  | .start operation rows => (p.start operation rows).2
  | .record rows => (p.record rows).2
  | .stop => p.stop.2

def after (p : Profiler) (requests : List Request) : Profiler :=
  requests.foldl perform p

-- What is read of the memory when each of the requests comes.
def memoryReadings (p : Profiler) : List Request → List (Except Failure Binary64)
  | [] => []
  | r :: requests => p.readMemory.1 :: (p.perform r).memoryReadings requests

@[simp] theorem after_nil (p : Profiler) : p.after [] = p := rfl

@[simp] theorem after_cons (p : Profiler) (r : Request) (requests : List Request) :
    p.after (r :: requests) = (p.perform r).after requests := rfl

theorem after_append (p : Profiler) (requests later : List Request) :
    p.after (requests ++ later) = (p.after requests).after later :=
  List.foldl_append

theorem memoryReadings_append (p : Profiler) (requests later : List Request) :
    p.memoryReadings (requests ++ later) =
      p.memoryReadings requests ++ (p.after requests).memoryReadings later := by
  induction requests generalizing p with
  | nil => rfl
  | cons r requests ih => simp [memoryReadings, ih]

theorem length_memoryReadings (p : Profiler) (requests : List Request) :
    (p.memoryReadings requests).length = requests.length := by
  induction requests generalizing p with
  | nil => rfl
  | cons r requests ih => exact congrArg (· + 1) (ih _)

variable {p : Profiler}

theorem start_eq {x : Binary64} (h : p.readMemory.1 = .ok x) (operation : Text) (rows : Int) :
    p.perform (.start operation rows) =
      { p with sensors := p.sensors.next, session := some ⟨operation, p.readClock.1, some x⟩,
               peak := .real x, rowsIn := rows, rowsOut := 0 } := by
  rw [readMemory_eq] at h
  dsimp only at h
  show (p.start operation rows).2 = _
  unfold start
  rw [readClock_eq]
  dsimp only
  rw [readMemory_eq]
  dsimp only
  rw [h]
  dsimp only
  rw [readProcessor_eq]
  rfl

theorem record_eq {x : Binary64} (h : p.readMemory.1 = .ok x) (rows : Int) :
    p.perform (.record rows) =
      { p with sensors.memory := (reading 0 p.sensors.memory).2, peak := p.peak.max (.real x),
               rowsOut := rows } := by
  rw [readMemory_eq] at h
  dsimp only at h
  show (p.record rows).2 = _
  unfold record
  dsimp only
  rw [readMemory_eq]
  dsimp only
  rw [h]

-- The entry for a session that ends when the memory is as read.
def entry (p : Profiler) (session : Session) (memoryEnd rate : Binary64) : Metrics where
  operation := session.operation
  startTime := session.startTime
  endTime := p.readClock.1
  duration := p.readClock.1 - session.startTime
  rowsIn := p.rowsIn
  rowsOut := p.rowsOut
  memoryStart := session.memory
  memoryEnd := memoryEnd
  memoryPeak := p.peak.max (.real memoryEnd)
  processor := p.readProcessor.1
  rate := rate

theorem stop_eq {session : Session} {x rate : Binary64} (hsession : p.session = some session)
    (hoperation : session.operation ≠ []) (h : p.readMemory.1 = .ok x)
    (hrate : rowRate p.rowsIn (p.readClock.1 - session.startTime) = .ok rate) :
    p.stop.1.result = .ok (p.entry session x rate) ∧
      p.stop.2 = { p with sensors := p.sensors.next, session := none,
                          peak := p.peak.max (.real x),
                          history := p.history ++ [p.entry session x rate] } := by
  have hnamed : session.operation.isEmpty = false := by simpa using hoperation
  rw [readMemory_eq] at h
  rw [readClock_eq] at hrate
  dsimp only at h hrate
  unfold stop
  rw [hsession]
  dsimp only
  rw [hnamed, if_neg Bool.false_ne_true, readClock_eq]
  dsimp only
  rw [readMemory_eq]
  dsimp only
  rw [h]
  dsimp only
  rw [readProcessor_eq]
  dsimp only
  rw [hrate]
  exact ⟨rfl, rfl⟩

theorem exists_readMemory (h : MemoryFinite p.sensors.memory) : ∃ x, p.readMemory.1 = .ok x := by
  rcases hread : p.readMemory with ⟨outcome, q⟩
  exact (readMemory_ok hread h).1

theorem MemoryFinite.next {readings : List Int} (h : MemoryFinite readings) :
    MemoryFinite (reading 0 readings).2 :=
  fun bytes hbytes => h bytes (reading_snd_subset 0 _ hbytes)

-- What a session that is open knows of its operation, with the readings of memory so far.
structure Tracks (p : Profiler) (operation : Text) (startTime : Binary64) (rowsIn rowsOut : Int)
    (readings : List Binary64) : Prop where
  memory : MemoryFinite p.sensors.memory
  session : p.session = some ⟨operation, startTime, readings.head?⟩
  rowsIn : p.rowsIn = rowsIn
  rowsOut : p.rowsOut = rowsOut
  peak : IsMaximum p.peak readings

-- Nothing is left of what was before a start.
theorem tracks_start (h : MemoryFinite p.sensors.memory) (operation : Text) (rows : Int) :
    ∃ x, p.readMemory.1 = .ok x ∧
      (p.perform (.start operation rows)).Tracks operation p.readClock.1 rows 0 [x] := by
  obtain ⟨x, hx⟩ := exists_readMemory h
  rw [start_eq hx]
  exact ⟨x, hx, h.next, rfl, rfl, rfl, isMaximum_singleton x⟩

variable {operation : Text} {startTime : Binary64} {rowsIn rowsOut : Int}
  {readings : List Binary64}

theorem Tracks.record (h : p.Tracks operation startTime rowsIn rowsOut readings) (rows : Int) :
    ∃ x, p.readMemory.1 = .ok x ∧
      (p.perform (.record rows)).Tracks operation startTime rowsIn rows (readings ++ [x]) := by
  obtain ⟨x, hx⟩ := exists_readMemory h.memory
  obtain ⟨y, hy, -⟩ := h.peak.mem
  have hfirst : (readings ++ [x]).head? = readings.head? :=
    List.head?_append_of_ne_nil _ (List.ne_nil_of_mem hy)
  rw [record_eq hx]
  exact ⟨x, hx, h.memory.next, by rw [hfirst, ← h.session], h.rowsIn, rfl, h.peak.concat x⟩

theorem Tracks.records (h : p.Tracks operation startTime rowsIn rowsOut readings)
    (counts : List Int) :
    ∃ xs : List Binary64, p.memoryReadings (counts.map .record) = xs.map .ok ∧
      (p.after (counts.map .record)).Tracks operation startTime rowsIn
        (counts.getLastD rowsOut) (readings ++ xs) := by
  induction counts generalizing p rowsOut readings with
  | nil => exact ⟨[], rfl, by simpa using h⟩
  | cons rows counts ih =>
      obtain ⟨x, hx, hrecorded⟩ := h.record rows
      obtain ⟨xs, hxs, htracks⟩ := ih hrecorded
      refine ⟨x :: xs, ?_, ?_⟩
      · rw [List.map_cons, memoryReadings, hx, hxs, List.map_cons]
      · rw [List.map_cons, after_cons, List.getLastD_cons, List.append_cons]
        exact htracks

theorem Tracks.stop (h : p.Tracks operation startTime rowsIn rowsOut readings)
    (hoperation : operation ≠ []) (hrows : ∃ x, Binary64.ofInt? rowsIn = some x) :
    ∃ x rate, p.readMemory.1 = .ok x ∧
      rowRate rowsIn (p.readClock.1 - startTime) = .ok rate ∧
      p.stop.1.result = .ok (p.entry ⟨operation, startTime, readings.head?⟩ x rate) ∧
      p.stop.2 = { p with sensors := p.sensors.next, session := none,
                          peak := p.peak.max (.real x),
                          history := p.history ++
                            [p.entry ⟨operation, startTime, readings.head?⟩ x rate] } := by
  obtain ⟨x, hx⟩ := exists_readMemory h.memory
  obtain ⟨rate, hrate⟩ := rowRate_ok hrows (p.readClock.1 - startTime)
  have hrate' := hrate
  rw [← h.rowsIn] at hrate'
  exact ⟨x, rate, hx, hrate, stop_eq h.session hoperation hx hrate'⟩

-- The last start, with what came after it. No stop that came after it went through.
structure Pending (p : Profiler) (requests before : List Request) (operation : Text) (rows : Int)
    (later : List Request) : Prop where
  split : requests = before ++ .start operation rows :: later
  latest : ∀ name count, .start name count ∉ later
  unstopped : ∀ earlier rest, later = earlier ++ .stop :: rest →
    ∀ m, (p.after (before ++ .start operation rows :: earlier)).stop.1.result ≠ .ok m

-- Since a start, nothing came but what was recorded.
theorem Tracks.only_records (h : p.Tracks operation startTime rowsIn rowsOut readings)
    (hoperation : operation ≠ []) (hrows : ∃ x, Binary64.ofInt? rowsIn = some x)
    {later : List Request} (hlatest : ∀ name count, .start name count ∉ later)
    (hunstopped : ∀ earlier rest, later = earlier ++ .stop :: rest →
      ∀ m, (p.after earlier).stop.1.result ≠ .ok m) :
    ∃ counts, later = List.map Request.record counts := by
  induction later generalizing p rowsOut readings with
  | nil => exact ⟨[], rfl⟩
  | cons r later ih =>
      cases r with
      | start name count => exact absurd List.mem_cons_self (hlatest name count)
      | stop =>
          obtain ⟨x, rate, -, -, hresult, -⟩ := h.stop hoperation hrows
          have hfails := hunstopped [] later rfl
          rw [after_nil] at hfails
          exact absurd hresult (hfails _)
      | record rows =>
          obtain ⟨x, -, hrecorded⟩ := h.record rows
          have hlatest' : ∀ name count, .start name count ∉ later := fun name count hmem =>
            hlatest name count (List.mem_cons_of_mem _ hmem)
          obtain ⟨counts, rfl⟩ := ih hrecorded hlatest' fun earlier rest heq m => by
            have hfails := hunstopped (.record rows :: earlier) rest (by rw [heq]; rfl) m
            rwa [after_cons] at hfails
          exact ⟨rows :: counts, rfl⟩

variable {requests before later : List Request} {rows : Int}

theorem Pending.after_eq (h : p.Pending requests before operation rows later) :
    p.after requests = ((p.after before).perform (.start operation rows)).after later := by
  rw [h.split, after_append, after_cons]

theorem Pending.tracks (h : p.Pending requests before operation rows later)
    (hmemory : MemoryFinite (p.after before).sensors.memory) (hoperation : operation ≠ [])
    (hrows : ∃ x, Binary64.ofInt? rows = some x) :
    ∃ (counts : List Int) (xs : List Binary64), later = counts.map .record ∧
      (p.after before).memoryReadings (.start operation rows :: later) = xs.map .ok ∧
      (p.after requests).Tracks operation (p.after before).readClock.1 rows
        (counts.getLastD 0) xs := by
  obtain ⟨x, hx, hstarted⟩ := tracks_start hmemory operation rows
  have hunstopped : ∀ earlier rest, later = earlier ++ .stop :: rest → ∀ m,
      (((p.after before).perform (.start operation rows)).after earlier).stop.1.result ≠ .ok m := by
    intro earlier rest heq m
    have hresult := h.unstopped earlier rest heq m
    rwa [after_append, after_cons] at hresult
  obtain ⟨counts, rfl⟩ := hstarted.only_records hoperation hrows h.latest hunstopped
  obtain ⟨xs, hxs, htracks⟩ := hstarted.records counts
  refine ⟨counts, x :: xs, rfl, ?_, ?_⟩
  · rw [memoryReadings, hx, hxs, List.map_cons]
  · rw [h.after_eq, ← List.singleton_append]
    exact htracks

-- A request that is no start adds to what came after the last one, unless it stops the session.
theorem pending_concat {r : Request} (hr : ∀ name count, r ≠ .start name count) :
    p.Pending (requests ++ [r]) before operation rows later ↔
      ∃ earlier, later = earlier ++ [r] ∧ p.Pending requests before operation rows earlier ∧
        (r = .stop → ∀ m, (p.after requests).stop.1.result ≠ .ok m) := by
  constructor
  · intro h
    rcases List.eq_nil_or_concat later with rfl | ⟨earlier, b, rfl⟩
    · obtain ⟨-, hlast⟩ := List.append_inj' h.split rfl
      exact absurd (List.singleton_inj.mp hlast) (hr operation rows)
    · have hsplit := h.split
      rw [List.concat_eq_append, ← List.cons_append, ← List.append_assoc] at hsplit
      obtain ⟨hrequests, hlast⟩ := List.append_inj' hsplit rfl
      obtain rfl := List.singleton_inj.mp hlast
      refine ⟨earlier, List.concat_eq_append, ⟨hrequests, fun name count hmem => ?_, ?_⟩, ?_⟩
      · exact h.latest name count (by simp [hmem])
      · intro first rest heq
        exact h.unstopped first (rest ++ [r]) (by simp [heq])
      · rintro rfl m
        rw [hrequests]
        exact h.unstopped earlier [] List.concat_eq_append m
  · rintro ⟨earlier, rfl, h, hstop⟩
    refine ⟨by rw [h.split]; simp, fun name count hmem => ?_, fun first rest heq m => ?_⟩
    · rcases List.mem_append.mp hmem with hmem | hmem
      · exact h.latest name count hmem
      · exact hr name count (List.mem_singleton.mp hmem).symm
    · rcases List.eq_nil_or_concat rest with rfl | ⟨rest, b, rfl⟩
      · obtain ⟨rfl, hlast⟩ := List.append_inj' heq rfl
        rw [← h.split]
        exact hstop (List.singleton_inj.mp hlast) m
      · rw [List.concat_eq_append, ← List.cons_append, ← List.append_assoc] at heq
        exact h.unstopped first rest (List.append_inj' heq rfl).1 m

theorem stop_none (h : p.session = none) :
    p.stop.1.result = .error .notProfiling ∧ p.stop.2 = p := by
  unfold stop
  rw [h]
  exact ⟨rfl, rfl⟩

-- Starts that can be stopped: of operations with a name and of as many rows as a double can count.
def Stoppable (requests : List Request) : Prop :=
  ∀ operation rows, .start operation rows ∈ requests →
    operation ≠ [] ∧ ∃ x, Binary64.ofInt? rows = some x

-- Between requests either a session is open, and it keeps track of the last start, or there is
-- none, and no start is waiting for its stop.
inductive Standing (p : Profiler) (requests : List Request) : Prop
  | opened {before later : List Request} {operation : Text} {rows rowsOut : Int}
      {readings : List Binary64} (hpending : p.Pending requests before operation rows later)
      (htracks : (p.after requests).Tracks operation (p.after before).readClock.1 rows rowsOut
        readings) : Standing p requests
  | closed (hmemory : MemoryFinite (p.after requests).sensors.memory)
      (hsession : (p.after requests).session = none)
      (hnone : ∀ before operation rows later, ¬p.Pending requests before operation rows later) :
      Standing p requests

theorem Standing.memory (h : p.Standing requests) :
    MemoryFinite (p.after requests).sensors.memory := by
  cases h with
  | opened _ htracks => exact htracks.memory
  | closed hmemory _ _ => exact hmemory

theorem Standing.perform (h : p.Standing requests) (r : Request)
    (hstoppable : Stoppable (requests ++ [r])) : p.Standing (requests ++ [r]) := by
  have hafter : p.after (requests ++ [r]) = (p.after requests).perform r := by
    rw [after_append, after_cons, after_nil]
  cases r with
  | start operation rows =>
      obtain ⟨x, -, htracks⟩ := tracks_start h.memory operation rows
      exact .opened ⟨rfl, by simp, by simp⟩ (by rw [hafter]; exact htracks)
  | record rows =>
      have hrecord : ∀ name count, Request.record rows ≠ .start name count := nofun
      cases h with
      | opened hpending htracks =>
          obtain ⟨x, -, htracks⟩ := htracks.record rows
          exact .opened ((pending_concat hrecord).mpr ⟨_, rfl, hpending, nofun⟩)
            (by rw [hafter]; exact htracks)
      | closed hmemory hsession hnone =>
          obtain ⟨x, hx⟩ := exists_readMemory hmemory
          rw [record_eq hx] at hafter
          refine .closed (by rw [hafter]; exact hmemory.next) (by rw [hafter]; exact hsession) ?_
          intro before operation count later hpending
          obtain ⟨earlier, -, hearlier, -⟩ := (pending_concat hrecord).mp hpending
          exact hnone _ _ _ _ hearlier
  | stop =>
      have hstop : ∀ name count, Request.stop ≠ .start name count := nofun
      cases h with
      | @opened _ _ operation rows _ _ hpending htracks =>
          obtain ⟨hoperation, hrows⟩ :=
            hstoppable operation rows (by rw [hpending.split]; simp)
          obtain ⟨x, rate, -, -, hresult, hstopped⟩ := htracks.stop hoperation hrows
          have hclosed : p.after (requests ++ [.stop]) = _ := hafter.trans hstopped
          refine .closed (by rw [hclosed]; exact htracks.memory.next) (by rw [hclosed]) ?_
          intro before operation count later hpending
          obtain ⟨earlier, -, -, hfails⟩ := (pending_concat hstop).mp hpending
          exact hfails rfl _ hresult
      | closed hmemory hsession hnone =>
          have hsame : p.after (requests ++ [.stop]) = p.after requests :=
            hafter.trans (stop_none hsession).2
          refine .closed (by rw [hsame]; exact hmemory) (by rw [hsame]; exact hsession) ?_
          intro before operation count later hpending
          obtain ⟨earlier, -, hearlier, -⟩ := (pending_concat hstop).mp hpending
          exact hnone _ _ _ _ hearlier

theorem standing (hmemory : MemoryFinite p.sensors.memory) (hsession : p.session = none)
    (hstoppable : Stoppable requests) : p.Standing requests := by
  induction requests using List.reverseRecOn with
  | nil => exact .closed hmemory hsession fun _ _ _ _ h => by simpa using h.split
  | append_singleton requests r ih =>
      have hbefore : Stoppable requests := fun operation rows hmem =>
        hstoppable operation rows (List.mem_append_left _ hmem)
      exact (ih hbefore).perform r hstoppable

theorem isNaN_ofRank (negative : Bool) (rank : Nat) :
    (Binary64.ofRank negative rank).isNaN = false := by
  unfold Binary64.ofRank
  split <;> rfl

theorem isNaN_div_kilo (negative : Bool) (rank : Fin finiteRanks) :
    (Binary64.finite negative rank / .ofRatio false 1024 1).isNaN = false := by
  have hkilo : Binary64.nearestRank (Binary64.unitsInOne * 1024) 1 ≠ 0 := by decide +kernel
  unfold Binary64.ofRatio Binary64.ofRank
  generalize Binary64.nearestRank (Binary64.unitsInOne * 1024) 1 = kilo at hkilo
  show (Binary64.div _ _).isNaN = false
  split
  · unfold Binary64.div
    simp only [hkilo, if_false]
    exact isNaN_ofRank _ _
  · exact isNaN_ofRank _ _

theorem megabytes_isNaN {bytes : Int} {x : Binary64} (h : megabytes bytes = .ok x) :
    x.isNaN = false := by
  have hquotient : (Binary64.ofRatio (bytes < 0) bytes.natAbs 1024).isNaN = false :=
    isNaN_ofRank _ _
  unfold megabytes at h
  generalize Binary64.ofRatio (bytes < 0) bytes.natAbs 1024 = quotient at h hquotient
  cases quotient with
  | nan mark => cases hquotient
  | infinite negative => cases h
  | finite negative rank =>
      obtain rfl := Except.ok.inj h
      exact isNaN_div_kilo negative rank

theorem isNaN_of_mem_memoryReadings {x : Binary64} (h : .ok x ∈ p.memoryReadings requests) :
    x.isNaN = false := by
  induction requests generalizing p with
  | nil => cases h
  | cons r requests ih =>
      rw [memoryReadings, List.mem_cons] at h
      rcases h with hx | h
      · rw [readMemory_eq] at hx
        dsimp only at hx
        exact megabytes_isNaN hx.symm
      · exact ih h

-- What a profiler has noted makes no difference to what it records.
theorem Tracks.after_records (h : p.Tracks operation startTime rowsIn rowsOut readings)
    (counts : List Int) (channel : Channel) (history : List Metrics) :
    ({ p with channel, history } : Profiler).after (counts.map .record) =
      { p.after (counts.map .record) with channel, history } := by
  induction counts generalizing p rowsOut readings with
  | nil => rfl
  | cons rows counts ih =>
      obtain ⟨x, hx, hrecorded⟩ := h.record rows
      have hx' : ({ p with channel, history } : Profiler).readMemory.1 = .ok x := hx
      rw [record_eq hx] at hrecorded
      rw [List.map_cons, after_cons, after_cons, record_eq hx, record_eq hx']
      exact ih hrecorded

-- Nor does anything that was before a start, apart from the sensors.
theorem after_start_eq {other : Profiler} (hsensors : other.sensors = p.sensors)
    (hmemory : MemoryFinite p.sensors.memory) (operation : Text) (rows : Int)
    (counts : List Int) :
    other.after (.start operation rows :: counts.map .record) =
      { p.after (.start operation rows :: counts.map .record) with
        channel := other.channel, history := other.history } := by
  obtain ⟨x, hx, hstarted⟩ := tracks_start hmemory operation rows
  have hother : other.readMemory.1 = .ok x := by
    rw [readMemory_eq] at hx ⊢
    rw [hsensors]
    exact hx
  have hclock : other.readClock.1 = p.readClock.1 := by
    rw [readClock_eq, readClock_eq, hsensors]
  have hsame : other.perform (.start operation rows) =
      { p.perform (.start operation rows) with
        channel := other.channel, history := other.history } := by
    rw [start_eq hx, start_eq hother, hsensors, hclock]
  rw [after_cons, after_cons, hsame]
  exact hstarted.after_records counts other.channel other.history

-- All that an entry says, with where it comes from: the profiler before the start, the profiler
-- before the stop, and what was recorded and read in between.
structure Accounts (m : Metrics) (opened closed : Profiler) (operation : Text) (rows : Int)
    (counts : List Int) (readings : List Binary64) : Prop where
  operation : m.operation = operation
  startTime : m.startTime = opened.readClock.1
  endTime : m.endTime = closed.readClock.1
  duration : m.duration = m.endTime - m.startTime
  rowsIn : m.rowsIn = rows
  rowsOut : m.rowsOut = counts.getLastD 0
  memoryStart : m.memoryStart = readings.head?
  memoryEnd : readings.getLast? = some m.memoryEnd
  memoryPeak : IsMaximum m.memoryPeak readings
  processor : m.processor = closed.readProcessor.1
  rate : rowRate rows m.duration = .ok m.rate

theorem Pending.accounts (h : p.Pending requests before operation rows later)
    (hmemory : MemoryFinite (p.after before).sensors.memory) (hoperation : operation ≠ [])
    (hrows : ∃ x, Binary64.ofInt? rows = some x) :
    ∃ m counts readings, (p.after requests).stop.1.result = .ok m ∧
      (p.after requests).stop.2.history = (p.after requests).history ++ [m] ∧
      later = List.map .record counts ∧
      (p.after before).memoryReadings (.start operation rows :: later ++ [.stop]) =
        List.map .ok readings ∧
      Accounts m (p.after before) (p.after requests) operation rows counts readings ∧
      ∀ other : Profiler, other.sensors = (p.after before).sensors →
        (other.after (.start operation rows :: later)).stop.1.result = .ok m := by
  obtain ⟨counts, xs, rfl, hxs, htracks⟩ := h.tracks hmemory hoperation hrows
  obtain ⟨x, rate, hx, hrate, hresult, hstopped⟩ := htracks.stop hoperation hrows
  have hafter : p.after requests =
      (p.after before).after (.start operation rows :: counts.map .record) := by
    rw [h.after_eq, after_cons]
  refine ⟨_, counts, xs ++ [x], hresult, by rw [hstopped], rfl, ?_, ⟨rfl, rfl, rfl, rfl,
    htracks.rowsIn, htracks.rowsOut, ?_, ?_, htracks.peak.concat x, rfl, hrate⟩, ?_⟩
  · rw [memoryReadings_append, hxs, ← hafter, memoryReadings, hx, List.map_append]
    rfl
  · obtain ⟨y, hy, -⟩ := htracks.peak.mem
    exact (List.head?_append_of_ne_nil _ (List.ne_nil_of_mem hy)).symm
  · exact List.getLast?_concat
  · intro other hsensors
    let relabelled : Profiler :=
      { p.after requests with channel := other.channel, history := other.history }
    have hsame : relabelled.Tracks operation (p.after before).readClock.1 rows
        (counts.getLastD 0) xs := ⟨htracks.memory, htracks.session, htracks.rowsIn, htracks.rowsOut,
      htracks.peak⟩
    have hrate' : rowRate relabelled.rowsIn (relabelled.readClock.1 -
        (p.after before).readClock.1) = .ok rate := by
      rw [hsame.rowsIn]
      exact hrate
    rw [after_start_eq hsensors hmemory operation rows counts, ← hafter]
    exact (stop_eq (p := relabelled) hsame.session hoperation hx hrate').1

-- Whatever a profiler is asked that has no session yet, as a new one has none, a stop fails exactly
-- if no start is waiting for it, and then leaves the history as it is. Otherwise it adds one entry,
-- and that accounts for the last start and for what came since, whatever was before.
theorem stop_accounts (hmemory : MemoryFinite p.sensors.memory) (hsession : p.session = none)
    (hstoppable : Stoppable requests) :
    ((p.after requests).stop.1.result = .error .notProfiling ↔
      ∀ before operation rows later, ¬p.Pending requests before operation rows later) ∧
    ((p.after requests).stop.1.result = .error .notProfiling →
      (p.after requests).stop.2.history = (p.after requests).history) ∧
    ∀ before operation rows later, p.Pending requests before operation rows later →
      ∃ m counts readings, (p.after requests).stop.1.result = .ok m ∧
        (p.after requests).stop.2.history = (p.after requests).history ++ [m] ∧
        later = List.map .record counts ∧
        (p.after before).memoryReadings (.start operation rows :: later ++ [.stop]) =
          List.map .ok readings ∧
        (∀ x ∈ readings, x.isNaN = false) ∧
        Accounts m (p.after before) (p.after requests) operation rows counts readings ∧
        (∀ x ∈ m.memoryStart, m.memoryPeak.lt (.real x) = false) ∧
        m.memoryPeak.lt (.real m.memoryEnd) = false ∧
        ∀ other : Profiler, other.sensors = (p.after before).sensors →
          (other.after (.start operation rows :: later)).stop.1.result = .ok m := by
  have hstanding : p.Standing requests := standing hmemory hsession hstoppable
  have haccounts {before : List Request} {operation : Text} {rows : Int} {later : List Request}
      (h : p.Pending requests before operation rows later) := by
    have hbefore : Stoppable before := fun name count hmem =>
      hstoppable name count (by rw [h.split]; exact List.mem_append_left _ hmem)
    obtain ⟨hoperation, hrows⟩ := hstoppable operation rows (by rw [h.split]; simp)
    exact h.accounts (standing hmemory hsession hbefore).memory hoperation hrows
  refine ⟨⟨fun hfails before operation rows later h => ?_, fun hnone => ?_⟩, fun hfails => ?_,
    fun before operation rows later h => ?_⟩
  · obtain ⟨m, -, -, hresult, -⟩ := haccounts h
    cases hresult.symm.trans hfails
  · cases hstanding with
    | opened hpending _ => exact absurd hpending (hnone _ _ _ _)
    | closed _ hclosed _ => exact (stop_none hclosed).1
  · cases hstanding with
    | opened hpending _ =>
        obtain ⟨m, -, -, hresult, -⟩ := haccounts hpending
        cases hresult.symm.trans hfails
    | closed _ hclosed _ => rw [(stop_none hclosed).2]
  · obtain ⟨m, counts, readings, hresult, hhistory, hlater, hreadings, hm, hsame⟩ := haccounts h
    have hnumbers : ∀ x ∈ readings, x.isNaN = false := by
      intro x hx
      have hmem : .ok x ∈ readings.map (Except.ok (ε := Failure)) := List.mem_map_of_mem hx
      rw [← hreadings] at hmem
      exact isNaN_of_mem_memoryReadings hmem
    have hstart : ∀ x ∈ m.memoryStart, m.memoryPeak.lt (.real x) = false := by
      intro x hx
      rw [hm.memoryStart] at hx
      exact hm.memoryPeak.max x (List.mem_of_head? hx)
    have hend := hm.memoryPeak.max _ (List.mem_of_getLast? hm.memoryEnd)
    exact ⟨m, counts, readings, hresult, hhistory, hlater, hreadings, hnumbers, hm, hstart, hend,
      hsame⟩

-- The first operation is interrupted by the second, which takes less memory.
theorem stop_accounts_interrupted :
    let sensors : Sensors := ⟨[.zero, .one], [9437184, 8388608, 1048576, 3145728, 2097152], [.zero]⟩
    let fresh : Profiler := { channel := .profiler, sensors }
    let before : List Request := [.start "first" 2, .record 7]
    let requests := before ++ .start "second" 3 :: [.record 5]
    MemoryFinite sensors.memory ∧ Stoppable requests ∧
      fresh.Pending requests before "second" 3 [.record 5] ∧
      ∃ m readings, (fresh.after requests).stop.1.result = .ok m ∧
        (fresh.after requests).stop.2.history = (fresh.after requests).history ++ [m] ∧
        m.operation = "second" ∧ m.rowsIn = 3 ∧ m.rowsOut = 5 ∧
        IsMaximum m.memoryPeak readings ∧ readings.length = 3 := by
  intro sensors fresh before requests
  have hmemory : MemoryFinite sensors.memory := by
    have hall : ∀ bytes ∈ sensors.memory, bytes.natAbs ≤ 2 ^ 64 := by decide
    exact fun bytes hbytes => megabytes_ok (hall bytes hbytes)
  have hcount {n : Int} (h : n.natAbs ≤ 2 ^ 64) : ∃ x, Binary64.ofInt? n = some x := by
    obtain ⟨negative, rank, hrank⟩ := Binary64.ofInt?_eq_some h
    exact ⟨_, hrank⟩
  have hstoppable : Stoppable requests := by
    intro operation rows hmem
    simp only [requests, before, List.mem_append, List.mem_cons, List.not_mem_nil, reduceCtorEq,
      Request.start.injEq, or_false] at hmem
    rcases hmem with ⟨rfl, rfl⟩ | ⟨rfl, rfl⟩
    · exact ⟨by decide, hcount (by decide)⟩
    · exact ⟨by decide, hcount (by decide)⟩
  have hpending : fresh.Pending requests before "second" 3 [.record 5] := by
    refine ⟨rfl, by simp, fun earlier rest heq => ?_⟩
    have hmem : Request.stop ∈ [Request.record 5] := by
      rw [heq]
      exact List.mem_append_right _ List.mem_cons_self
    simp at hmem
  obtain ⟨-, -, haccounts⟩ := stop_accounts (p := fresh) hmemory rfl hstoppable
  obtain ⟨m, counts, readings, hresult, hhistory, hcounts, hreadings, -, hm, -⟩ :=
    haccounts before _ _ _ hpending
  obtain rfl : counts = [5] := by
    cases counts with
    | nil => cases hcounts
    | cons n rest =>
        obtain ⟨hn, hrest⟩ := List.cons.inj hcounts
        rw [List.nil_eq, List.map_eq_nil_iff] at hrest
        rw [← Request.record.inj hn, hrest]
  have hlength := congrArg List.length hreadings
  rw [length_memoryReadings, List.length_map] at hlength
  exact ⟨hmemory, hstoppable, hpending, m, readings, hresult, hhistory, hm.operation, hm.rowsIn,
    hm.rowsOut, hm.memoryPeak, hlength.symm⟩

end Profiler

end Unnest
