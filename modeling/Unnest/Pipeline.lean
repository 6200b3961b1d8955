import Unnest.Call
import Unnest.Profiler.Basic
import Unnest.Source

namespace Unnest

-- A call of a verb, which is looked up by name when the stage runs.
structure Stage where
  verb : Text
  arguments : Arguments := {}

namespace Stage

def reservedNames : List Text :=
  ["self", "verb"]

-- A stage whose verb is known. Its arguments are looked at when it runs.
def make (verb : Text) (arguments : Arguments) : Except Failure Stage :=
  if arguments.names.any fun (name, _) => reservedNames.contains name then .error .mismatch
  else
    match Verb.ofName? verb with
    | some _ => .ok { verb, arguments }
    | none =>
        .error (.reject (.unknownVerb verb (.join ", " (Verb.all.map Verb.name)))
          (.record [("verb", .text verb)]))

def apply (s : Stage) (t : JsonTable) : Traced JsonTable :=
  match Verb.ofName? s.verb with
  | some verb => verb.call .function s.arguments t
  | none => throw (.noVerb s.verb)

-- The call as it would be written.
def describe (s : Stage) : Except Failure Text := do
  return .concat [s.verb, "(", ← s.arguments.shown, ")"]

def noteRowCounts (s : Stage) (before after : JsonTable) : Traced Unit := do
  let shown ← liftM s.describe
  Traced.note .debug .pipeline (.concat [shown, ": ", .ofNat before.rowCount, " -> ",
    .ofNat after.rowCount, " rows"])

def run (s : Stage) (t : JsonTable) : Traced JsonTable := do
  let u ← s.apply t
  s.noteRowCounts t u
  return u

-- The same with a session of the profiler around it.
def runMeasured (s : Stage) (t : JsonTable) (p : Profiler) : Traced JsonTable × Profiler :=
  match s.describe with
  | .error e => (throw e, p)
  | .ok shown =>
      let (outcome, p) := p.measure shown t.rowCount fun p =>
        let outcome := s.apply t
        match outcome.result with
        | .error _ => (outcome, p)
        | .ok u =>
            let (recorded, p) := p.record u.rowCount
            (do let u ← outcome; recorded; return u, p)
      (do let u ← outcome; s.noteRowCounts t u; return u, p)

end Stage

-- Stages that run one after the other, each on the result of the one before.
abbrev Pipeline := List Stage

namespace Pipeline

def begin (stages : Pipeline) (source : Source) (jsonColumn : Datum) (room : Headroom := none) :
    Traced JsonTable := do
  let t ← source.load .pipeline jsonColumn room
  Traced.note .info .pipeline (.concat ["Running pipeline of ", .ofNat stages.length,
    " steps on ", .ofNat t.rowCount, " rows"])
  return t

def finish (t : JsonTable) : Traced JsonTable := do
  Traced.note .info .pipeline (.concat ["Pipeline finished with ", .ofNat t.rowCount,
    " rows and ", .ofNat t.table.columns.length, " columns"])
  return t

def run (stages : Pipeline) (source : Source) (jsonColumn : Datum := .none)
    (room : Headroom := none) : Traced JsonTable := do
  let t ← begin stages source jsonColumn room
  finish (← stages.foldlM (fun t s => s.run t) t)

def runStages : Pipeline → JsonTable → Profiler → Traced JsonTable × Profiler
  | [], t, p => (pure t, p)
  | s :: stages, t, p =>
      let (outcome, p) := s.runMeasured t p
      match outcome.result with
      | .error _ => (outcome, p)
      | .ok u =>
          let (later, p) := runStages stages u p
          (do let _ ← outcome; later, p)

-- The same with every stage measured.
def runProfiled (stages : Pipeline) (source : Source) (jsonColumn : Datum) (p : Profiler)
    (room : Headroom := none) : Traced JsonTable × Profiler :=
  let begun := begin stages source jsonColumn room
  match begun.result with
  | .error _ => (begun, p)
  | .ok t =>
      let (outcome, p) := runStages stages t p
      (do let _ ← begun; let u ← outcome; finish u, p)

end Pipeline

end Unnest
