import Unnest.Journal

namespace Unnest

-- What a check found. A warning does not make a call invalid.
structure Findings where
  faults : List Fault := []
  warnings : List Text := []

namespace Findings

def isValid (f : Findings) : Bool := f.faults.isEmpty

end Findings

namespace Validation

def documentText : Datum → Findings
  | .text t => if t.isBlank then { faults := [.emptyDocument] } else {}
  | d => { faults := [.documentType d.typeName] }

-- A column has a non-empty name, and the column of documents is written only on import.
def columnName (allowReserved : Bool) (name : Datum) : Except Failure Findings :=
  match name with
  | .text (c :: cs) =>
      .ok (if c :: cs = documentColumn && !allowReserved then { faults := [.reservedColumn] }
        else {})
  | d => d.quoted.map fun shown => { faults := [.columnName shown] }

-- Steps are keys or indices. An index below one is allowed, although it is found nowhere.
def path (steps : List Datum) : Except Failure Findings :=
  match steps with
  | [] => .ok { faults := [.emptyPath] }
  | steps =>
      (steps.zipIdx 1).foldlM (fun found (step, position) =>
        match step.step? with
        | none =>
            .ok { found with faults := found.faults ++ [.pathStep position step.typeName] }
        | some (.key _) => .ok found
        | some (.index i) =>
            if i < 1 then
              (numeral i).map fun digits =>
                { found with
                  warnings := found.warnings ++ [.concat ["Path step ", .ofNat position,
                    " is index ", digits, "; array indices start at 1"]] }
            else .ok found) {}

end Validation

namespace ColumnType

-- Logicals are not numbers here, and every integer is also a number.
def admits : ColumnType → Datum → Bool
  | string, .text _ => true
  | logical, .bool _ => true
  | integer, .int _ => true
  | number, .int _ => true
  | number, .float _ => true
  | _, _ => false

end ColumnType

namespace Validation

def maxCellFaults : Nat := 5

-- The first few cells that are present and do not fit, by row.
def cells (type : ColumnType) (values : List Datum) : Except Failure Findings := do
  let misfits := (values.zipIdx 1).filter fun (value, _) =>
    match value with
    | .none => false
    | value => !type.admits value
  let faults ← (misfits.take maxCellFaults).mapM fun (value, row) => do
    return Fault.cell row (← value.quoted) type
  return { faults }

end Validation

namespace Findings

-- Refuses a call for the faults that were found, if any.
def check (found : Findings) (context : Datum := .none) : Except Failure Unit :=
  match found.faults with
  | [] => .ok ()
  | first :: others => .error (.rejected { first, others, context })

-- The same, with a note of the refusal.
def require (channel : Channel) (found : Findings) (context : Datum := .none) :
    Traced Unit :=
  match found.faults with
  | [] => pure ()
  | first :: others => do
      let r : Rejection := { first, others, context }
      .note .error channel (.concat ["Invalid call: ", r.type.name, " - ", r.message])
      throw (.rejected r)

-- Notes the warnings and hands the findings on.
def warn (channel : Channel) (found : Findings) : Traced Findings := do
  found.warnings.forM (Traced.note .warning channel)
  return found

end Findings

-- What a user can do about a refused call.
structure Advice where
  canRecover : Bool
  action : Text
  context : Datum

namespace Rejection

-- The document that a rejection is about, if its context names one. Where there is a context it
-- has to be a mapping.
def document (r : Rejection) : Except Failure Datum :=
  match r.context with
  | .dict entries => .ok ((entries.lookup (.text "document")).getD .none)
  | context => if context.isTrue then .error .noSuchOperation else .ok .none

def advice (r : Rejection) : Traced Advice := do
  .note .error .errorHandler (.concat ["Processing error: ", r.type.name, " - ", r.message])
  let recover (action : Text) : Advice := ⟨true, action, r.context⟩
  match r.type with
  | .syntaxFault =>
      let document ← liftM r.document
      let place ←
        if document.isTrue then do
          let shown ← liftM document.plain
          pure (Text.concat ["document ", shown])
        else pure (Text.ofString "the input")
      return recover (.concat ["Fix the JSON syntax of ", place, " and run again. ",
        "Use --lines when the file holds one document per line."])
  | .reservedColumn =>
      return recover "Choose another column name; 'document.id' is reserved."
  | .path | .columnName | .argument =>
      return recover (.concat ["Check the step arguments: paths need at least one key or index ",
        "and column names must be non-empty."])
  | .source =>
      return recover (.concat ["Pass JSON text, a list of JSON texts, or a table together with ",
        "the name of its JSON column."])
  | .columnType | .invariant =>
      return ⟨false, "Internal consistency check failed. Please check logs and report the issue.",
        r.context⟩

end Rejection

end Unnest
