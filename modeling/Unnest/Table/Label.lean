import Unnest.Table.Storage

namespace Unnest

namespace Datum

def tuple? : Datum → Option (List Datum)
  | tuple xs => some xs
  | _ => Option.none

-- A cell that is missing, marked by a NaN.
def orNaN (d : Datum) : Datum :=
  if d.isMissing then float (.nan 0) else d

-- The double for a number. What is missing is a NaN.
def asReal (d : Datum) : Datum :=
  match d.unboxed with
  | int n => ((Binary64.ofInt? n).map float).getD d
  | d => d.orNaN

def asComplex (d : Datum) : Datum :=
  match d.asReal with
  | float x => foreign (.complex x .zero)
  | d => d

end Datum

-- How pandas 3.1 makes labels of the names of columns. Frames use `ofNames`, and nothing else of
-- this.
namespace Label

-- What the names of some columns have in common so far.
structure Survey where
  hasLogical : Bool := false
  hasInteger : Bool := false
  hasNegative : Bool := false
  hasUnsigned : Bool := false
  hasReal : Bool := false
  hasComplex : Bool := false
  hasNone : Bool := false
  hasNaN : Bool := false

namespace Survey

-- An integer that is too large for a double cannot be told apart from an infinity, and is refused.
-- One that is too large for the machine, alone or next to a negative one, ends the survey, unless a
-- name is missing by then.
def addInteger (s : Survey) (n : Int) : Except Failure (Option Survey) :=
  if (Binary64.ofInt? n).isNone then .error .overflow
  else if s.hasNone then .ok (some { s with hasInteger := true })
  else
    let s := { s with hasInteger := true
                      hasNegative := s.hasNegative || (fitsSigned n && n < 0)
                      hasUnsigned := s.hasUnsigned || (fitsUnsigned n && !fitsSigned n) }
    .ok (if (s.hasNegative && s.hasUnsigned) || !(fitsSigned n || fitsUnsigned n) then none
      else some s)

-- Anything but a number ends the survey.
def add (s : Survey) (name : Datum) : Except Failure (Option Survey) :=
  match name.unboxed with
  | .none => .ok (some { s with hasNone := true })
  | .bool _ => .ok (some { s with hasLogical := true })
  | .int n => s.addInteger n
  | .float x =>
      .ok (some (if x.isNaN then { s with hasNaN := true } else { s with hasReal := true }))
  | .foreign (.complex _ _) => .ok (some { s with hasComplex := true })
  | _ => .ok none

def ofNames (s : Survey) : List Datum → Except Failure (Option Survey)
  | [] => .ok (some s)
  | name :: names => do
      match ← s.add name with
      | some s => s.ofNames names
      | none => return none

def isNumeric (s : Survey) : Bool :=
  s.hasInteger || s.hasReal || s.hasComplex || s.hasNaN

-- How names become labels of one kind. Logicals have no kind in common with other names, and
-- integers remain unless one of them is missing.
def unify (s : Survey) : Datum → Datum :=
  if s.hasLogical && (s.isNumeric || s.hasNone) then id
  else if s.hasComplex then Datum.asComplex
  else if s.hasReal || s.hasNaN || (s.hasInteger && s.hasNone) then Datum.asReal
  else Datum.unboxed

end Survey

-- Names of columns as labels. Among texts a name that is missing is a NaN.
def ofPlain (names : List Datum) : Except Failure (List Datum) := do
  match ← Survey.ofNames {} names with
  | some s => return names.map s.unify
  | none =>
      if names.all fun d => d.isMissing || d.isText then return names.map Datum.orNaN
      else return names

-- Each datum once, where it stands first.
def distinct (ds : List Datum) : List Datum :=
  (Entries.ofList (ds.map fun d => (d, ()))).map Prod.fst

-- One place of names that are tuples. Equal names have one label, and next to a missing one
-- integers are doubles. Complex numbers leave the others as they are.
def place (names : List Datum) : Except Failure (List Datum) := do
  let found := distinct (names.filter fun d => !d.isMissing)
  let label : Datum → Datum :=
    match ← Survey.ofNames {} found with
    | some s =>
        if s.hasComplex then id
        else { s with hasNone := s.hasInteger && names.any Datum.isMissing }.unify
    | none => id
  return names.map fun d =>
    match found.find? (d == ·) with
    | some e => label e
    | none => d.orNaN

-- Names that are all tuples are as long as the longest, and each place is labelled for itself. The
-- empty tuple has no place and is a label by itself.
def ofNames (names : List Datum) : Except Failure (List Datum) := do
  match names.mapM Datum.tuple? with
  | none => ofPlain names
  | some tuples =>
      let width := (tuples.map List.length).foldl max 0
      if width = 0 then return names.map fun name => .tuple [name]
      else
        let places ← (List.range width).mapM fun i => place (tuples.map (·.getD i .none))
        return (List.range tuples.length).map fun row => .tuple (places.map (·.getD row .none))

-- Texts are labels as they are.
theorem ofNames_text (names : List Text) :
    ofNames (names.map Datum.text) = .ok (names.map Datum.text) := by
  cases names with
  | nil => rfl
  | cons name names =>
      simp [ofNames, Datum.tuple?, ofPlain, Survey.ofNames, Survey.add, Datum.unboxed, Datum.orNaN,
        Datum.isMissing, Datum.isText, bind, Except.bind, pure, Except.pure]

end Label

end Unnest
