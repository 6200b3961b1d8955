import Unnest.Journal

namespace Unnest

-- What the sensors are going to read. The last reading of each repeats.
structure Sensors where
  clock : List Binary64
  memory : List Int
  processor : List Binary64

-- One reading, and the readings that are left.
def reading (idle : α) : List α → α × List α
  | [] => (idle, [])
  | [x] => (x, [x])
  | x :: y :: rest => (x, y :: rest)

structure Metrics where
  operation : Text
  startTime : Binary64
  endTime : Binary64
  duration : Binary64
  rowsIn : Int
  rowsOut : Int
  memoryStart : Option Binary64
  memoryEnd : Binary64
  memoryPeak : Number
  processor : Binary64
  rate : Binary64

-- An operation that was started and not yet stopped. The memory is not known if it could not be
-- read.
structure Session where
  operation : Text
  startTime : Binary64
  memory : Option Binary64

structure Profiler where
  channel : Channel
  sensors : Sensors
  session : Option Session := none
  peak : Number := .int 0
  rowsIn : Int := 0
  rowsOut : Int := 0
  history : List Metrics := []

namespace Profiler

-- Memory is read in bytes and kept in megabytes.
def megabytes (bytes : Int) : Except Failure Binary64 :=
  match Binary64.ofRatio (bytes < 0) bytes.natAbs 1024 with
  | .infinite _ => .error .overflow
  | x => .ok (x / .ofRatio false 1024 1)

def readClock (p : Profiler) : Binary64 × Profiler :=
  let (x, clock) := reading .zero p.sensors.clock
  (x, { p with sensors := { p.sensors with clock } })

def readMemory (p : Profiler) : Except Failure Binary64 × Profiler :=
  let (bytes, memory) := reading 0 p.sensors.memory
  (megabytes bytes, { p with sensors := { p.sensors with memory } })

def readProcessor (p : Profiler) : Binary64 × Profiler :=
  let (x, processor) := reading .zero p.sensors.processor
  (x, { p with sensors := { p.sensors with processor } })

-- A start forgets a session that was not stopped, apart from its memory as long as there is no
-- new reading. The profiler is handed back after a failure too, with the session begun.
def start (p : Profiler) (operation : Text) (rows : Int) : Traced Unit × Profiler :=
  let (startTime, p) := p.readClock
  let begun := { operation, startTime, memory := p.session.bind Session.memory : Session }
  let p := { p with session := some begun, rowsIn := rows, rowsOut := 0 }
  match p.readMemory with
  | (.error e, p) => (throw e, p)
  | (.ok memory, p) =>
      let p := { p with session := some { begun with memory }, peak := .real memory }
      let (_, p) := p.readProcessor
      (.note .debug p.channel (.concat ["Started profiling: ", operation]), p)

def record (p : Profiler) (rows : Int) : Traced Unit × Profiler :=
  let p := { p with rowsOut := rows }
  match p.readMemory with
  | (.error e, p) => (throw e, p)
  | (.ok memory, p) => (pure (), { p with peak := p.peak.max (.real memory) })

-- Rows for each second; no time and a time that runs backwards give none.
def rowRate (rows : Int) (duration : Binary64) : Except Failure Binary64 :=
  if (Number.int 0).lt (.real duration) then
    match Binary64.ofInt? rows with
    | some count => .ok (count / duration)
    | none => .error .overflow
  else .ok .zero

def Metrics.note (channel : Channel) (m : Metrics) : Traced Unit :=
  .note .info channel (.concat [m.operation, ": ", .ofInt m.rowsIn, " -> ", .ofInt m.rowsOut,
    " rows in ", (m.duration * .ofRatio false 1000 1).fixed 1, "ms, memory peak ",
    (m.memoryPeak.toReal?.getD .zero).fixed 1, " MB"])

-- Only an operation with a name can be stopped. A rate out of range leaves the session open.
def stop (p : Profiler) : Traced Metrics × Profiler :=
  match p.session with
  | none => (throw .notProfiling, p)
  | some session =>
      if session.operation.isEmpty then (throw .notProfiling, p)
      else
        let (endTime, p) := p.readClock
        let duration := endTime - session.startTime
        match p.readMemory with
        | (.error e, p) => (throw e, p)
        | (.ok memoryEnd, p) =>
            let (processor, p) := p.readProcessor
            let p := { p with peak := p.peak.max (.real memoryEnd) }
            match rowRate p.rowsIn duration with
            | .error e => (throw e, p)
            | .ok rate =>
                let m : Metrics := {
                  operation := session.operation, startTime := session.startTime, endTime, duration
                  rowsIn := p.rowsIn, rowsOut := p.rowsOut, memoryStart := session.memory, memoryEnd
                  memoryPeak := p.peak, processor, rate }
                (do Metrics.note p.channel m; return m,
                  { p with session := none, history := p.history ++ [m] })

-- Runs an operation between a start and a stop. The stop comes after a failure too, and if it
-- fails itself, that failure is the one that counts.
def measure (p : Profiler) (operation : Text) (rows : Int)
    (body : Profiler → Traced α × Profiler) : Traced α × Profiler :=
  let (started, p) := p.start operation rows
  match started.result with
  | .error e => (⟨started.journal, .error e⟩, p)
  | .ok () =>
      let (outcome, p) := body p
      let (stopped, p) := p.stop
      (⟨started.journal ++ outcome.journal ++ stopped.journal,
        stopped.result >>= fun _ => outcome.result⟩, p)

end Profiler

end Unnest
