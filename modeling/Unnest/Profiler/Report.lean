import Unnest.Json.Spelling
import Unnest.Profiler.Basic

namespace Unnest

namespace Text

-- Sixteen bits as an escape.
def unitEscape (n : Nat) : Text :=
  .concat ["\\u", hexDigits 4 n]

-- Characters outside ASCII, and those that do not print, are written as units of sixteen bits.
def asciiEscape (c : CodePoint) : Text :=
  if c = .char '"' ∨ c = .char '\\' then [.char '\\', c]
  else if c = .char '\n' then "\\n"
  else if c = .char '\r' then "\\r"
  else if c = .char '\t' then "\\t"
  else if c = .char '\x0c' then "\\f"
  else if c = .char '\x08' then "\\b"
  else if 0x20 ≤ c.code ∧ c.code ≤ 0x7E then [c]
  else if c.code < 0x10000 then unitEscape c.code
  else
    let n := c.code - 0x10000
    unitEscape (0xD800 + n / 0x400) ++ unitEscape (0xDC00 + n % 0x400)

-- A text as a JSON string in ASCII.
def asciiQuoted (t : Text) : Text :=
  .concat ["\"", t.flatMap asciiEscape, "\""]

end Text

namespace Metrics

-- The figures with their names, in the order in which they are reported.
def fields (m : Metrics) : List (Text × Datum) :=
  [("operation_name", .text m.operation), ("start_time", .float m.startTime),
    ("end_time", .float m.endTime), ("duration", .float m.duration), ("rows_in", .int m.rowsIn),
    ("rows_out", .int m.rowsOut), ("memory_start_mb", (m.memoryStart.map .float).getD .none),
    ("memory_end_mb", .float m.memoryEnd), ("memory_peak_mb", .ofNumber m.memoryPeak),
    ("cpu_percent", .float m.processor), ("rows_per_second", .float m.rate)]

-- Figures are numbers, apart from the name of the operation. One that is not known is null.
def figure : Datum → Text
  | .text t => t.asciiQuoted
  | .int n => .ofInt n
  | .float x => x.spelling
  | _ => "null"

def jsonLines (m : Metrics) : Text :=
  let line := fun (name, d) => Text.concat ["    ", Text.asciiQuoted name, ": ", figure d]
  .concat ["  \x7b\n", .join ",\n" (m.fields.map line), "\n  \x7d"]

-- No field is quoted.
def csvLine (m : Metrics) : Text :=
  let peak := match m.memoryPeak with
    | .int n => Text.ofInt n
    | .real x => x.text
  .join "," [m.operation, m.duration.text, .ofInt m.rowsIn, .ofInt m.rowsOut, peak, m.rate.text]

def summaryLine (m : Metrics) : Text :=
  .concat ["  ", m.operation, ": ", .ofInt m.rowsIn, " -> ", .ofInt m.rowsOut, " rows, ",
    m.duration.fixed 4, "s"]

end Metrics

namespace Profiler

def totalDuration (p : Profiler) : Binary64 :=
  p.history.foldl (fun total m => total + m.duration) .zero

-- The greatest of all peaks, if there is any.
def maxPeak? (p : Profiler) : Option Number :=
  match p.history with
  | [] => none
  | m :: rest => some (rest.foldl (fun peak m => peak.max m.memoryPeak) m.memoryPeak)

-- Totals over all operations, and the figures of each.
def summary (p : Profiler) : Datum :=
  let entry (name : Text) (d : Datum) : Datum × Datum := (.text name, d)
  let operation (m : Metrics) : Datum :=
    .dict [entry "name" (.text m.operation), entry "duration" (.float m.duration),
      entry "rows_in" (.int m.rowsIn), entry "rows_out" (.int m.rowsOut),
      entry "memory_peak" (.ofNumber m.memoryPeak)]
  let total := entry "total_operations" (.ofNat p.history.length)
  match p.maxPeak? with
  | none => .dict [total]
  | some peak =>
      .dict [total, entry "total_duration" (.float p.totalDuration),
        entry "max_memory_peak_mb" (.ofNumber peak),
        entry "operations" (.list (p.history.map operation))]

def toJsonText (p : Profiler) : Text :=
  if p.history.isEmpty then "[]"
  else .concat ["[\n", .join ",\n" (p.history.map Metrics.jsonLines), "\n]"]

-- One line for each operation, after one with the names of the fields.
def toCsv (p : Profiler) : Text :=
  .join "\n" ("operation,duration,rows_in,rows_out,memory_peak_mb,rows_per_second" ::
    p.history.map Metrics.csvLine)

def report (p : Profiler) : Text :=
  match p.maxPeak? with
  | none => "Performance Summary: no operations recorded"
  | some peak =>
      .join "\n" ([Text.ofString "Performance Summary:",
        .concat ["  Total Operations: ", .ofNat p.history.length],
        .concat ["  Total Duration: ", p.totalDuration.fixed 4, "s"],
        .concat ["  Max Memory Peak: ", (peak.toReal?.getD .zero).fixed 1, " MB"]] ++
        p.history.map Metrics.summaryLine)

def exportAs (p : Profiler) (format : Text) : Except Failure Text :=
  if format = "json" then .ok p.toJsonText
  else if format = "csv" then .ok p.toCsv
  else if format = "summary" then .ok p.report
  else .error (.exportFormat format)

end Profiler

end Unnest
